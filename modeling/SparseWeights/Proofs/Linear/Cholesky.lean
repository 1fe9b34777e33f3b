import SparseWeights.Linear.Cholesky
import SparseWeights.Proofs.Linear.Vec

/-!
The Cholesky factorisation over the reals. Only the lower triangle of a matrix
is read, so everything is said about the matrix mirrored from that triangle; a
symmetric matrix is its own mirror image. A factor multiplied by its transpose
gives the mirrored matrix back, solving with it solves the system of that
matrix, and its quadratic form is a sum of squares. A matrix has a factor
exactly if its mirror image is positive definite.
-/

namespace SparseWeights

open Matrix

/-- The symmetric matrix with the lower triangle of `A`. -/
def Mat.mirrored {n : Nat} (A : Mat ℝ n n) : Matrix (Fin n) (Fin n) ℝ :=
  Matrix.of fun i j => if j ≤ i then (A.get i).get j else (A.get j).get i

theorem Mat.mirrored_of_symmetric {n : Nat} (A : Mat ℝ n n)
    (hA : (Mat.toMatrix A).IsSymm) : Mat.mirrored A = Mat.toMatrix A := by
  ext i j
  by_cases h : j ≤ i
  · simp [Mat.mirrored, Mat.toMatrix_apply, h]
  · have hsymm := hA.apply i j
    rw [Mat.toMatrix_apply, Mat.toMatrix_apply] at hsymm
    simp [Mat.mirrored, Mat.toMatrix_apply, h, hsymm]

namespace Factor

/-- The lower triangular matrix that a factor stands for. -/
def toMat : {n : Nat} → Factor ℝ n → Mat ℝ n n
  | 0, .empty => #v[]
  | _ + 1, .border leading row pivot =>
    ((toMat leading).map fun line => line.push 0).push (row.push pivot)

/-- Every pivot of a factor is positive. -/
def Positive : {n : Nat} → Factor ℝ n → Prop
  | 0, .empty => True
  | _ + 1, .border leading _ pivot => Positive leading ∧ 0 < pivot

variable {n : Nat}

private theorem border_apply (leading : Factor ℝ n) (row : Vec ℝ n) (pivot : ℝ) :
    (∀ i j : Fin n, Mat.toMatrix (toMat (.border leading row pivot))
        i.castSucc j.castSucc = Mat.toMatrix (toMat leading) i j) ∧
    (∀ i : Fin n, Mat.toMatrix (toMat (.border leading row pivot))
        i.castSucc (Fin.last n) = 0) ∧
    (∀ j : Fin n, Mat.toMatrix (toMat (.border leading row pivot))
        (Fin.last n) j.castSucc = row.get j) ∧
    Mat.toMatrix (toMat (.border leading row pivot))
        (Fin.last n) (Fin.last n) = pivot := by
  simp [toMat, Mat.toMatrix_apply]

/-- Forward substitution solves the lower triangular system. -/
theorem lower_mulVec_forward (L : Factor ℝ n) (hL : L.Positive) (b : Vec ℝ n) :
    Mat.toMatrix L.toMat *ᵥ (L.forward b).get = b.get := by
  induction L with
  | empty =>
      funext i
      exact i.elim0
  | border leading row pivot ih =>
      obtain ⟨hblock, hzero, hrow, hpivot⟩ := border_apply leading row pivot
      obtain ⟨hleading, hpos⟩ := hL
      have hprev := ih hleading b.pop
      funext i
      rw [Matrix.mulVec, dotProduct, Fin.sum_univ_castSucc]
      refine Fin.lastCases ?_ (fun k => ?_) i
      · simp only [hrow, hpivot, forward, Vec.get_push_castSucc,
          Vec.get_push_last, Vec.dot_eq_dotProduct, dotProduct,
          Vec.back_eq_get_last]
        field_simp
        ring
      · simp only [hblock, hzero, forward, Vec.get_push_castSucc, zero_mul,
          add_zero]
        simpa [Matrix.mulVec, dotProduct] using congrFun hprev k

/-- Backward substitution solves the transposed system. -/
theorem lower_transpose_mulVec_backward (L : Factor ℝ n) (hL : L.Positive)
    (y : Vec ℝ n) :
    (Mat.toMatrix L.toMat)ᵀ *ᵥ (L.backward y).get = y.get := by
  induction L with
  | empty =>
      funext i
      exact i.elim0
  | border leading row pivot ih =>
      obtain ⟨hblock, hzero, hrow, hpivot⟩ := border_apply leading row pivot
      obtain ⟨hleading, hpos⟩ := hL
      have hprev := ih hleading
        (Vec.sub y.pop (Vec.scale (y.back / pivot) row))
      funext i
      rw [Matrix.mulVec, dotProduct, Fin.sum_univ_castSucc]
      refine Fin.lastCases ?_ (fun k => ?_) i
      · simp only [Matrix.transpose_apply, hzero, hpivot, backward,
          Vec.get_push_castSucc, Vec.get_push_last, zero_mul,
          Finset.sum_const_zero, zero_add, Vec.back_eq_get_last]
        field_simp
      · have hk := congrFun hprev k
        simp only [Matrix.mulVec, dotProduct, Matrix.transpose_apply,
          Vec.get_sub, Vec.get_scale, Vec.get_pop] at hk
        simp only [Matrix.transpose_apply, hblock, hrow, backward,
          Vec.get_push_castSucc, Vec.get_push_last, hk]
        ring

/-- A factor solves the system of its product with its transpose. -/
theorem product_mulVec_solve (L : Factor ℝ n) (hL : L.Positive) (b : Vec ℝ n) :
    (Mat.toMatrix L.toMat * (Mat.toMatrix L.toMat)ᵀ) *ᵥ (L.solve b).get = b.get := by
  rw [← Matrix.mulVec_mulVec, solve, lower_transpose_mulVec_backward L hL,
    lower_mulVec_forward L hL]

/-- The entries of the product of a bordered factor with its transpose. -/
private theorem border_product_apply (leading : Factor ℝ n) (row : Vec ℝ n)
    (pivot : ℝ) :
    let L := Mat.toMatrix (toMat (.border leading row pivot))
    let K := Mat.toMatrix (toMat leading)
    (∀ i j : Fin n, (L * Lᵀ) i.castSucc j.castSucc = (K * Kᵀ) i j) ∧
    (∀ i : Fin n, (L * Lᵀ) i.castSucc (Fin.last n) = (K *ᵥ row.get) i) ∧
    (∀ j : Fin n, (L * Lᵀ) (Fin.last n) j.castSucc = (K *ᵥ row.get) j) ∧
    (L * Lᵀ) (Fin.last n) (Fin.last n) = Vec.dot row row + pivot * pivot := by
  obtain ⟨hblock, hzero, hrow, hpivot⟩ := border_apply leading row pivot
  refine ⟨fun i j => ?_, fun i => ?_, fun j => ?_, ?_⟩
  · simp only [Matrix.mul_apply, Matrix.transpose_apply, Fin.sum_univ_castSucc,
      hblock, hzero, mul_zero, add_zero]
  · simp only [Matrix.mul_apply, Matrix.transpose_apply, Fin.sum_univ_castSucc,
      hblock, hzero, hrow, zero_mul, add_zero, Matrix.mulVec, dotProduct]
  · simp only [Matrix.mul_apply, Matrix.transpose_apply, Fin.sum_univ_castSucc,
      hblock, hzero, hrow, mul_zero, add_zero, Matrix.mulVec, dotProduct]
    exact Finset.sum_congr rfl fun k _ => mul_comm _ _
  · simp only [Matrix.mul_apply, Matrix.transpose_apply, Fin.sum_univ_castSucc,
      hrow, hpivot, Vec.dot_eq_dotProduct, dotProduct]

/-- If a matrix has a factor, its leading block has one, from which the last
row and the square of the last pivot are computed. -/
private theorem cholesky?_succ {A : Mat ℝ (n + 1) (n + 1)} {L : Factor ℝ (n + 1)}
    (h : cholesky? A = some L) :
    ∃ (block : Mat ℝ n n) (side : Vec ℝ n) (leading : Factor ℝ n) (square : ℝ),
      (∀ i j, (block.get i).get j = (A.get i.castSucc).get j.castSucc) ∧
      (∀ j, side.get j = (A.get (Fin.last n)).get j.castSucc) ∧
      cholesky? block = some leading ∧ 0 < square ∧
      square = (A.get (Fin.last n)).get (Fin.last n) -
        Vec.dot (leading.forward side) (leading.forward side) ∧
      L = .border leading (leading.forward side) (Real.sqrt square) := by
  simp only [cholesky?, Option.bind_eq_bind, Option.bind_eq_some_iff] at h
  obtain ⟨leading, hleading, hpivot⟩ := h
  split at hpivot
  · rename_i hsquare
    refine ⟨_, _, leading, _, ?_, ?_, hleading, hsquare, ?_,
      (Option.some.inj hpivot).symm⟩
    · intro i j
      simp
    · intro j
      simp
    · simp
  · cases hpivot

theorem positive_of_cholesky? {A : Mat ℝ n n} {L : Factor ℝ n}
    (h : cholesky? A = some L) : L.Positive := by
  induction n with
  | zero =>
      cases L
      trivial
  | succ n ih =>
      obtain ⟨_, _, leading, square, _, _, hleading, hsquare, _, rfl⟩ :=
        cholesky?_succ h
      exact ⟨ih hleading, Real.sqrt_pos.mpr hsquare⟩

/-- A factor multiplied by its transpose is the matrix that was factorised. -/
theorem product_of_cholesky? {A : Mat ℝ n n} {L : Factor ℝ n}
    (h : cholesky? A = some L) :
    Mat.toMatrix L.toMat * (Mat.toMatrix L.toMat)ᵀ = Mat.mirrored A := by
  induction n with
  | zero =>
      ext i
      exact i.elim0
  | succ n ih =>
      obtain ⟨block, side, leading, square, hentry, hside, hleading, hsquare,
        hdef, rfl⟩ := cholesky?_succ h
      obtain ⟨hblock, hcolumn, hrow, hcorner⟩ := border_product_apply leading
        (leading.forward side) (Real.sqrt square)
      have hforward := lower_mulVec_forward leading
        (positive_of_cholesky? hleading) side
      ext i j
      refine Fin.lastCases ?_ (fun a => ?_) i
      · refine Fin.lastCases ?_ (fun b => ?_) j
        · rw [hcorner, Real.mul_self_sqrt hsquare.le, hdef]
          simp [Mat.mirrored]
        · rw [hrow, hforward, hside]
          simp [Mat.mirrored, Fin.le_last]
      · refine Fin.lastCases ?_ (fun b => ?_) j
        · rw [hcolumn, hforward, hside]
          simp [Mat.mirrored, Fin.last_le_iff]
        · rw [hblock, ih hleading]
          simp [Mat.mirrored, hentry]

/-- The form of the mirrored matrix along a factor is a sum of squares. -/
private theorem form_of_cholesky? {A : Mat ℝ n n} {L : Factor ℝ n}
    (h : cholesky? A = some L) (x y : Fin n → ℝ) :
    x ⬝ᵥ (Mat.mirrored A *ᵥ y) =
      ((Mat.toMatrix L.toMat)ᵀ *ᵥ x) ⬝ᵥ ((Mat.toMatrix L.toMat)ᵀ *ᵥ y) := by
  rw [← product_of_cholesky? h, ← Matrix.mulVec_mulVec, Matrix.dotProduct_mulVec,
    ← Matrix.mulVec_transpose]

/-- A matrix with a factor has only positive directions. -/
theorem form_pos_of_cholesky? {A : Mat ℝ n n} {L : Factor ℝ n}
    (h : cholesky? A = some L) {x : Fin n → ℝ} (hx : x ≠ 0) :
    0 < x ⬝ᵥ (Mat.mirrored A *ᵥ x) := by
  have hform := form_of_cholesky? h x
  have hnonneg : 0 ≤ x ⬝ᵥ (Mat.mirrored A *ᵥ x) := by
    rw [hform]
    exact dotProduct_self_nonneg _
  apply hnonneg.lt_of_ne
  intro hzero
  apply hx
  have hside : (Mat.toMatrix L.toMat)ᵀ *ᵥ x = 0 := by
    rw [hform] at hzero
    exact dotProduct_self_eq_zero.mp hzero.symm
  -- The system of the factor reaches `x` itself.
  have hsolve := product_mulVec_solve L (positive_of_cholesky? h) (Vector.ofFn x)
  have hget : (Vector.ofFn x).get = x := funext (Vec.get_ofFn x)
  have hself : x ⬝ᵥ x = 0 := by
    nth_rewrite 2 [← hget]
    rw [← hsolve, product_of_cholesky? h, hform, hside, zero_dotProduct]
  exact dotProduct_self_eq_zero.mp hself

/-- The product of a right side with its solution is that of the half-way
solution with itself. -/
private theorem dot_solve (L : Factor ℝ n) (hL : L.Positive) (b : Vec ℝ n) :
    b.get ⬝ᵥ (L.solve b).get = (L.forward b).get ⬝ᵥ (L.forward b).get := by
  have hbackward := lower_transpose_mulVec_backward L hL (L.forward b)
  nth_rewrite 1 [← lower_mulVec_forward L hL b]
  rw [dotProduct_comm, Matrix.dotProduct_mulVec, ← Matrix.mulVec_transpose, solve,
    hbackward]

/-- The form of a bordered matrix, by that of its leading block. -/
private theorem mirrored_form_snoc (A : Mat ℝ (n + 1) (n + 1)) {block : Mat ℝ n n}
    {side : Vec ℝ n}
    (hblock : ∀ i j, (block.get i).get j = (A.get i.castSucc).get j.castSucc)
    (hside : ∀ j, side.get j = (A.get (Fin.last n)).get j.castSucc)
    (x : Fin n → ℝ) (t : ℝ) :
    (Fin.snoc x t : Fin (n + 1) → ℝ) ⬝ᵥ (Mat.mirrored A *ᵥ Fin.snoc x t) =
      x ⬝ᵥ (Mat.mirrored block *ᵥ x) + 2 * t * (side.get ⬝ᵥ x) +
        t * t * (A.get (Fin.last n)).get (Fin.last n) := by
  have hinner (i j : Fin n) : Mat.mirrored A i.castSucc j.castSucc =
      Mat.mirrored block i j := by
    simp [Mat.mirrored, hblock]
  have hrow (j : Fin n) : Mat.mirrored A (Fin.last n) j.castSucc = side.get j := by
    simp [Mat.mirrored, hside, Fin.le_last]
  have hcolumn (i : Fin n) : Mat.mirrored A i.castSucc (Fin.last n) = side.get i := by
    simp [Mat.mirrored, hside, Fin.last_le_iff]
  have hcorner : Mat.mirrored A (Fin.last n) (Fin.last n) =
      (A.get (Fin.last n)).get (Fin.last n) := by
    simp [Mat.mirrored]
  have hcross : ∑ i, x i * (side.get i * t) = t * ∑ i, side.get i * x i := by
    rw [Finset.mul_sum]
    exact Finset.sum_congr rfl fun i _ => by ring
  simp only [dotProduct, Matrix.mulVec, Fin.sum_univ_castSucc, Fin.snoc_castSucc,
    Fin.snoc_last, hinner, hrow, hcolumn, hcorner, mul_add,
    Finset.sum_add_distrib, hcross]
  ring

/-- A matrix whose mirror image has only positive directions has a factor. -/
theorem exists_cholesky?_of_form_pos {A : Mat ℝ n n}
    (hA : ∀ x : Fin n → ℝ, x ≠ 0 → 0 < x ⬝ᵥ (Mat.mirrored A *ᵥ x)) :
    ∃ L, cholesky? A = some L := by
  induction n with
  | zero => exact ⟨.empty, rfl⟩
  | succ n ih =>
      set block : Mat ℝ n n := A.pop.map fun row => row.pop with hblockdef
      set side : Vec ℝ n := A.back.pop with hsidedef
      have hblock (i j : Fin n) :
          (block.get i).get j = (A.get i.castSucc).get j.castSucc := by
        simp [hblockdef]
      have hside (j : Fin n) :
          side.get j = (A.get (Fin.last n)).get j.castSucc := by
        simp [hsidedef]
      have hform := mirrored_form_snoc A hblock hside
      have hsnoc (x : Fin n → ℝ) (t : ℝ) (hxt : x ≠ 0 ∨ t ≠ 0) :
          (Fin.snoc x t : Fin (n + 1) → ℝ) ≠ 0 := by
        intro hzero
        rcases hxt with hx | ht
        · apply hx
          funext i
          simpa using congrFun hzero i.castSucc
        · apply ht
          simpa using congrFun hzero (Fin.last n)
      have hleadingpos : ∀ x : Fin n → ℝ, x ≠ 0 →
          0 < x ⬝ᵥ (Mat.mirrored block *ᵥ x) := by
        intro x hx
        have hpos := hA _ (hsnoc x 0 (.inl hx))
        rw [hform] at hpos
        linarith
      obtain ⟨leading, hleading⟩ := ih hleadingpos
      have hpositive := positive_of_cholesky? hleading
      have hsolve := product_mulVec_solve leading hpositive side
      rw [product_of_cholesky? hleading] at hsolve
      -- The square of the last pivot is the form where the block is solved.
      have hsquare : 0 < A.back.back -
          Vec.dot (leading.forward side) (leading.forward side) := by
        have hpos := hA _ (hsnoc (-(leading.solve side).get) 1 (.inr one_ne_zero))
        rw [hform, Matrix.mulVec_neg, hsolve, neg_dotProduct_neg, dotProduct_neg,
          dotProduct_comm, dot_solve leading hpositive] at hpos
        rw [Vec.dot_eq_dotProduct, Vec.back_eq_get_last, Vec.back_eq_get_last]
        linarith
      simp only [cholesky?, ← hblockdef, hleading, ← hsidedef, Option.bind_eq_bind,
        Option.bind_some]
      exact ⟨_, if_pos hsquare⟩

/-- A matrix has a factor exactly if its mirror image is positive definite. -/
theorem exists_cholesky?_iff {A : Mat ℝ n n} :
    (∃ L, cholesky? A = some L) ↔
      ∀ x : Fin n → ℝ, x ≠ 0 → 0 < x ⬝ᵥ (Mat.mirrored A *ᵥ x) := by
  constructor
  · rintro ⟨L, hL⟩ x hx
    exact form_pos_of_cholesky? hL hx
  · exact exists_cholesky?_of_form_pos

theorem ofMatrix?_eq_cholesky? (A : Mat ℝ n n) : ofMatrix? A = cholesky? A := by
  simp [ofMatrix?, Mat.allFinite_real]

@[simp] theorem solve?_eq_some (L : Factor ℝ n) (b : Vec ℝ n) :
    L.solve? b = some (L.solve b) := by
  simp [solve?, Vec.allFinite_real]

section Symmetric

variable {A : Mat ℝ n n} {L : Factor ℝ n}

private theorem product_of_symmetric (h : ofMatrix? A = some L)
    (hA : (Mat.toMatrix A).IsSymm) :
    Mat.toMatrix L.toMat * (Mat.toMatrix L.toMat)ᵀ = Mat.toMatrix A := by
  rw [ofMatrix?_eq_cholesky?] at h
  rw [product_of_cholesky? h, Mat.mirrored_of_symmetric A hA]

/-- Solving with the factor of a symmetric matrix solves its system. -/
theorem mulVec_solve_of_symmetric (h : ofMatrix? A = some L)
    (hA : (Mat.toMatrix A).IsSymm) (b : Vec ℝ n) :
    Mat.toMatrix A *ᵥ (L.solve b).get = b.get := by
  have hpositive := positive_of_cholesky? (ofMatrix?_eq_cholesky? A ▸ h)
  rw [← product_of_symmetric h hA]
  exact product_mulVec_solve L hpositive b

/-- A symmetric matrix with a factor is positive definite. -/
theorem quadratic_pos_of_symmetric (h : ofMatrix? A = some L)
    (hA : (Mat.toMatrix A).IsSymm) {x : Fin n → ℝ} (hx : x ≠ 0) :
    0 < x ⬝ᵥ (Mat.toMatrix A *ᵥ x) := by
  rw [← Mat.mirrored_of_symmetric A hA]
  exact form_pos_of_cholesky? (ofMatrix?_eq_cholesky? A ▸ h) hx

theorem quadratic_nonneg_of_symmetric (h : ofMatrix? A = some L)
    (hA : (Mat.toMatrix A).IsSymm) (x : Fin n → ℝ) :
    0 ≤ x ⬝ᵥ (Mat.toMatrix A *ᵥ x) := by
  rcases eq_or_ne x 0 with rfl | hx
  · simp
  · exact (quadratic_pos_of_symmetric h hA hx).le

/-- A positive definite symmetric matrix has a factor. -/
theorem exists_ofMatrix?_of_symmetric (hA : (Mat.toMatrix A).IsSymm)
    (hpos : ∀ x : Fin n → ℝ, x ≠ 0 → 0 < x ⬝ᵥ (Mat.toMatrix A *ᵥ x)) :
    ∃ L, ofMatrix? A = some L := by
  rw [ofMatrix?_eq_cholesky?, exists_cholesky?_iff, Mat.mirrored_of_symmetric A hA]
  exact hpos

end Symmetric

end Factor

end SparseWeights
