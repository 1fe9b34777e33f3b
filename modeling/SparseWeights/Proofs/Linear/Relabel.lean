import SparseWeights.Proofs.Linear.Cholesky

/-!
Other names for the entries of a vector. A vector is read through a permutation
of its places, a matrix through the same one in its rows and columns or in its
columns alone. Sums and largest magnitudes do not see the names. Factors do see
them, since they are made row by row, but a symmetric positive definite system
has one solution only, so what is solved with them is renamed and nothing else.
-/

namespace SparseWeights

open Matrix

variable {α : Type} {m n : ℕ}

namespace Vec

/-- The vector that has at place `i` the entry at place `names i`. -/
def relabel (names : Equiv.Perm (Fin n)) (v : Vec α n) : Vec α n :=
  Vector.ofFn fun i => v.get (names i)

variable (names : Equiv.Perm (Fin n))

@[simp] theorem get_relabel (v : Vec α n) (i : Fin n) :
    (relabel names v).get i = v.get (names i) := by
  simp [relabel]

@[simp] theorem relabel_replicate (x : α) :
    relabel names (Vector.replicate n x) = Vector.replicate n x := by
  apply eq_of_get
  simp

@[simp] theorem relabel_map {β : Type} (f : α → β) (v : Vec α n) :
    relabel names (v.map f) = (relabel names v).map f := by
  apply eq_of_get
  simp

@[simp] theorem relabel_zipWith {β γ : Type} (f : α → β → γ) (u : Vec α n)
    (v : Vec β n) :
    relabel names (Vector.zipWith f u v) =
      Vector.zipWith f (relabel names u) (relabel names v) := by
  apply eq_of_get
  simp

section Operations

variable [Scalar α] (u v : Vec α n)

@[simp] theorem relabel_add :
    relabel names (add u v) = add (relabel names u) (relabel names v) :=
  relabel_zipWith names _ u v

@[simp] theorem relabel_sub :
    relabel names (sub u v) = sub (relabel names u) (relabel names v) :=
  relabel_zipWith names _ u v

@[simp] theorem relabel_scale (a : α) :
    relabel names (scale a v) = scale a (relabel names v) :=
  relabel_map names _ v

end Operations

@[simp] theorem total_relabel (v : Vec ℝ n) : total (relabel names v) = total v := by
  simp only [total_eq_sum, get_relabel]
  exact Equiv.sum_comp names v.get

@[simp] theorem dot_relabel (u v : Vec ℝ n) :
    dot (relabel names u) (relabel names v) = dot u v := by
  rw [dot, ← relabel_zipWith, total_relabel, dot]

@[simp] theorem norm1_relabel (v : Vec ℝ n) : norm1 (relabel names v) = norm1 v := by
  rw [norm1, magnitudes, ← relabel_map, total_relabel, norm1, magnitudes]

@[simp] theorem maxAbs_relabel (v : Vec ℝ n) : maxAbs (relabel names v) = maxAbs v := by
  apply eq_of_forall_ge_iff
  intro bound
  simp only [maxAbs_le_iff, get_relabel]
  exact and_congr_right fun _ => names.forall_congr fun _ => Iff.rfl

end Vec

namespace Mat

def relabelColumns (names : Equiv.Perm (Fin n)) (A : Mat α m n) : Mat α m n :=
  A.map (Vec.relabel names)

def relabel (names : Equiv.Perm (Fin n)) (A : Mat α n n) : Mat α n n :=
  Vec.relabel names (relabelColumns names A)

variable (names : Equiv.Perm (Fin n))

@[simp] theorem get_relabelColumns (A : Mat α m n) (i : Fin m) (j : Fin n) :
    ((relabelColumns names A).get i).get j = (A.get i).get (names j) := by
  simp [relabelColumns]

@[simp] theorem get_relabel (A : Mat α n n) (i j : Fin n) :
    ((relabel names A).get i).get j = (A.get (names i)).get (names j) := by
  simp [relabel]

theorem toMatrix_relabel (A : Mat α n n) :
    toMatrix (relabel names A) = (toMatrix A).submatrix names names := by
  ext i j
  simp [toMatrix_apply]

theorem isSymm_relabel {A : Mat α n n} (hA : (toMatrix A).IsSymm) :
    (toMatrix (relabel names A)).IsSymm := by
  rw [toMatrix_relabel]
  exact hA.submatrix names

theorem transpose_relabelColumns (A : Mat α m n) :
    transpose (relabelColumns names A) = Vec.relabel names (transpose A) := by
  apply Vec.eq_of_get
  intro i
  apply Vec.eq_of_get
  simp [transpose]

theorem scale_relabel [Scalar α] (a : α) (A : Mat α n n) :
    scale a (relabel names A) = relabel names (scale a A) := by
  simp only [scale, relabel, relabelColumns, ← Vec.relabel_map, Vector.map_map]
  congr 2
  funext row
  exact (Vec.relabel_scale names row a).symm

theorem mulVec_relabelColumns (A : Mat ℝ m n) (x : Vec ℝ n) :
    mulVec (relabelColumns names A) (Vec.relabel names x) = mulVec A x := by
  simp [mulVec, relabelColumns, Function.comp_def]

theorem mulVec_relabel (A : Mat ℝ n n) (x : Vec ℝ n) :
    mulVec (relabel names A) (Vec.relabel names x) = Vec.relabel names (mulVec A x) := by
  rw [← mulVec_relabelColumns names A x, relabel, mulVec, ← Vec.relabel_map, mulVec]

theorem gram_relabelColumns (A : Mat ℝ m n) :
    gram (relabelColumns names A) = relabel names (gram A) := by
  apply Vec.eq_of_get
  intro i
  apply Vec.eq_of_get
  simp [gram, transpose_relabelColumns]

theorem maxAbs_relabel (A : Mat ℝ n n) : maxAbs (relabel names A) = maxAbs A := by
  apply eq_of_forall_ge_iff
  intro bound
  simp only [maxAbs_le_iff, get_relabel]
  exact and_congr_right fun _ => names.forall_congr fun _ =>
    names.forall_congr fun _ => Iff.rfl

end Mat

namespace Factor

variable {A : Mat ℝ n n} {L L' : Factor ℝ n} (names : Equiv.Perm (Fin n))

/-- A symmetric system has no other solution. -/
theorem solve_eq_of_mulVec (h : ofMatrix? A = some L) (hA : (Mat.toMatrix A).IsSymm)
    {x b : Vec ℝ n} (hx : Mat.mulVec A x = b) : L.solve b = x := by
  have hdifference : Mat.toMatrix A *ᵥ ((L.solve b).get - x.get) = 0 := by
    rw [Matrix.mulVec_sub, mulVec_solve_of_symmetric h hA, ← hx, Mat.mulVec_eq, sub_self]
  apply Vec.eq_of_get
  intro i
  by_contra hne
  have hpos := quadratic_pos_of_symmetric h hA
    (x := (L.solve b).get - x.get) fun hzero => hne (sub_eq_zero.mp (congrFun hzero i))
  rw [hdifference, dotProduct_zero] at hpos
  exact lt_irrefl _ hpos

/-- The renamed system has the renamed solution. -/
theorem solve_relabel (h : ofMatrix? A = some L) (hA : (Mat.toMatrix A).IsSymm)
    (h' : ofMatrix? (Mat.relabel names A) = some L') (b : Vec ℝ n) :
    L'.solve (Vec.relabel names b) = Vec.relabel names (L.solve b) := by
  apply solve_eq_of_mulVec h' (Mat.isSymm_relabel names hA)
  rw [Mat.mulVec_relabel]
  congr 1
  apply Vec.eq_of_get
  intro i
  rw [Mat.mulVec_eq, mulVec_solve_of_symmetric h hA]

theorem exists_ofMatrix?_relabel (h : ofMatrix? A = some L)
    (hA : (Mat.toMatrix A).IsSymm) : ∃ L', ofMatrix? (Mat.relabel names A) = some L' := by
  apply exists_ofMatrix?_of_symmetric (Mat.isSymm_relabel names hA)
  intro x hx
  have hback : x ∘ names.symm ≠ 0 := by
    intro hzero
    apply hx
    funext i
    simpa using congrFun hzero (names i)
  have hpos := quadratic_pos_of_symmetric h hA hback
  rwa [Mat.toMatrix_relabel, Matrix.submatrix_mulVec_equiv, ← comp_equiv_symm_dotProduct]

end Factor

end SparseWeights
