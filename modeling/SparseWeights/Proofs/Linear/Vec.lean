import Mathlib.LinearAlgebra.Matrix.DotProduct
import SparseWeights.Linear.Vec
import SparseWeights.Proofs.Real

/-!
Vectors and matrices seen through their entries. The operations on vectors get
one lemma each that says what an entry of the result is; over the reals a sum
is the finite sum of the entries and a product the product of Mathlib's
matrices. No proof outside this module opens a vector.
-/

namespace SparseWeights

open Matrix

variable {α : Type} {m n : Nat}

namespace Vec

theorem get_eq_getElem (v : Vec α n) (i : Fin n) : v.get i = v[i.val] := rfl

theorem eq_of_get {u v : Vec α n} (h : ∀ i, u.get i = v.get i) : u = v := by
  apply Vector.ext
  intro i hi
  exact h ⟨i, hi⟩

theorem toList_eq_ofFn (v : Vec α n) : v.toList = List.ofFn v.get := by
  apply List.ext_getElem
  · simp
  · intro i hleft hright
    simp [get_eq_getElem]

@[simp] theorem get_map {β : Type} (f : α → β) (v : Vec α n) (i : Fin n) :
    (v.map f).get i = f (v.get i) := by
  simp [get_eq_getElem]

@[simp] theorem get_zipWith {β γ : Type} (f : α → β → γ) (u : Vec α n)
    (v : Vec β n) (i : Fin n) :
    (Vector.zipWith f u v).get i = f (u.get i) (v.get i) := by
  simp [get_eq_getElem]

@[simp] theorem get_ofFn (f : Fin n → α) (i : Fin n) :
    (Vector.ofFn f).get i = f i := by
  simp [get_eq_getElem]

@[simp] theorem get_replicate (x : α) (i : Fin n) :
    (Vector.replicate n x).get i = x := by
  simp [get_eq_getElem]

theorem get_set (v : Vec α n) (i j : Fin n) (x : α) :
    (v.set i.val x i.isLt).get j = if j = i then x else v.get j := by
  simp only [get_eq_getElem, Vector.getElem_set, Fin.ext_iff, eq_comm (a := j.val)]

@[simp] theorem get_pop (v : Vec α (n + 1)) (i : Fin n) :
    v.pop.get i = v.get i.castSucc := by
  simp [get_eq_getElem]

@[simp] theorem back_eq_get_last (v : Vec α (n + 1)) :
    v.back = v.get (Fin.last n) := by
  simp [get_eq_getElem, Vector.back_eq_getElem]

@[simp] theorem get_push_castSucc (v : Vec α n) (x : α) (i : Fin n) :
    (v.push x).get i.castSucc = v.get i := by
  simp [get_eq_getElem]

@[simp] theorem get_push_last (v : Vec α n) (x : α) :
    (v.push x).get (Fin.last n) = x := by
  simp [get_eq_getElem]

section Entries

variable [Scalar α] (u v : Vec α n) (i : Fin n)

@[simp] theorem get_add : (add u v).get i = u.get i + v.get i := by
  simp [add]

@[simp] theorem get_sub : (sub u v).get i = u.get i - v.get i := by
  simp [sub]

@[simp] theorem get_scale (a : α) : (scale a v).get i = a * v.get i := by
  simp [scale]

@[simp] theorem get_magnitudes :
    (magnitudes v).get i = Scalar.abs (v.get i) := by
  simp [magnitudes]

end Entries

private theorem foldl_add_eq (xs : List ℝ) (start : ℝ) :
    xs.foldl (fun s x => s + x) start = start + xs.sum := by
  induction xs generalizing start with
  | nil => simp
  | cons x rest ih =>
      rw [List.foldl_cons, ih, List.sum_cons, add_assoc]

theorem foldl_add_zero (xs : List ℝ) :
    xs.foldl (fun s x => s + x) 0 = xs.sum := by
  rw [foldl_add_eq, zero_add]

theorem foldl_max_le_iff (xs : List ℝ) (start bound : ℝ) :
    xs.foldl Scalar.maxNaN start ≤ bound ↔
      start ≤ bound ∧ ∀ x ∈ xs, x ≤ bound := by
  induction xs generalizing start with
  | nil => simp
  | cons x rest ih =>
      rw [List.foldl_cons, ih, Scalar.maxNaN_eq_max, max_le_iff]
      simp [and_assoc]

theorem total_eq_sum (v : Vec ℝ n) : total v = ∑ i, v.get i := by
  rw [total, ← Vector.foldl_toList, foldl_add_zero, toList_eq_ofFn,
    List.sum_ofFn]

theorem dot_eq_dotProduct (u v : Vec ℝ n) : dot u v = u.get ⬝ᵥ v.get := by
  simp [dot, total_eq_sum, dotProduct]

theorem dot_comm (u v : Vec ℝ n) : dot u v = dot v u := by
  rw [dot_eq_dotProduct, dot_eq_dotProduct, dotProduct_comm]

theorem dot_sub (a u v : Vec ℝ n) : dot a (sub u v) = dot a u - dot a v := by
  have hentries : (sub u v).get = u.get - v.get := funext (get_sub u v)
  simp only [dot_eq_dotProduct, hentries, dotProduct_sub]

theorem sub_dot (a b u : Vec ℝ n) : dot (sub a b) u = dot a u - dot b u := by
  have hentries : (sub a b).get = a.get - b.get := funext (get_sub a b)
  simp only [dot_eq_dotProduct, hentries, sub_dotProduct]

theorem scale_one (v : Vec ℝ n) : scale 1 v = v := by
  apply eq_of_get
  intro i
  rw [get_scale, one_mul]

theorem norm1_eq_sum (v : Vec ℝ n) : norm1 v = ∑ i, |v.get i| := by
  simp [norm1, total_eq_sum]

theorem maxAbs_eq_foldl (v : Vec ℝ n) :
    maxAbs v = (v.toList.map fun x => |x|).foldl Scalar.maxNaN 0 := by
  rw [List.foldl_map, Vector.foldl_toList]
  rfl

theorem maxAbs_le_iff (v : Vec ℝ n) (bound : ℝ) :
    maxAbs v ≤ bound ↔ 0 ≤ bound ∧ ∀ i, |v.get i| ≤ bound := by
  rw [maxAbs_eq_foldl, foldl_max_le_iff]
  simp [toList_eq_ofFn]

/-- There are `n` magnitudes, none of them larger than the largest. -/
theorem norm1_le_mul {v : Vec ℝ n} {bound : ℝ} (h : maxAbs v ≤ bound) :
    norm1 v ≤ n * bound := by
  obtain ⟨_, hentries⟩ := (maxAbs_le_iff v bound).mp h
  rw [norm1_eq_sum]
  calc
    ∑ i, |v.get i| ≤ ∑ _i : Fin n, bound := Finset.sum_le_sum fun i _ => hentries i
    _ = n * bound := by simp

/-- The squared distance of two vectors. -/
noncomputable def distanceSq (u v : Vec ℝ n) : ℝ := dot (sub u v) (sub u v)

theorem distanceSq_eq_sum (u v : Vec ℝ n) :
    distanceSq u v = ∑ i, (u.get i - v.get i) ^ 2 := by
  rw [distanceSq, dot_eq_dotProduct, dotProduct]
  apply Finset.sum_congr rfl
  intro i _
  rw [get_sub, sq]

theorem distanceSq_nonneg (u v : Vec ℝ n) : 0 ≤ distanceSq u v := by
  rw [distanceSq_eq_sum]
  exact Finset.sum_nonneg fun i _ => sq_nonneg _

theorem distanceSq_eq_zero_iff {u v : Vec ℝ n} : distanceSq u v = 0 ↔ u = v := by
  rw [distanceSq_eq_sum, Finset.sum_eq_zero_iff_of_nonneg fun i _ => sq_nonneg _]
  constructor
  · intro h
    apply eq_of_get
    intro i
    exact sub_eq_zero.mp (sq_eq_zero_iff.mp (h i (Finset.mem_univ i)))
  · rintro rfl
    simp

/-- Two squared distances from one point differ by the square of the step and by
what the step has in common with the way already gone. -/
theorem distanceSq_eq_add (y u v : Vec ℝ n) :
    distanceSq y v = distanceSq y u + distanceSq v u - 2 * dot (sub y u) (sub v u) := by
  simp only [distanceSq_eq_sum, dot_eq_dotProduct, dotProduct, get_sub,
    Finset.mul_sum, ← Finset.sum_add_distrib, ← Finset.sum_sub_distrib]
  apply Finset.sum_congr rfl
  intro i _
  ring

/-- A vector is not longer than another one if it is covered by their product. -/
theorem dot_self_le_of_le_dot {u v : Vec ℝ n} (h : dot u u ≤ dot u v) :
    dot u u ≤ dot v v := by
  have hsquare := distanceSq_nonneg v u
  rw [distanceSq, sub_dot, dot_sub, dot_sub, dot_comm v u] at hsquare
  linarith

theorem allFinite_real (v : Vec ℝ n) : allFinite v = true := by
  simp [allFinite]

end Vec

theorem dotProduct_self_nonneg (x : Fin n → ℝ) : 0 ≤ x ⬝ᵥ x :=
  Finset.sum_nonneg fun i _ => mul_self_nonneg (x i)

theorem dotProduct_self_pos {x : Fin n → ℝ} (hx : x ≠ 0) : 0 < x ⬝ᵥ x :=
  (dotProduct_self_nonneg x).lt_of_ne' (dotProduct_self_eq_zero.not.mpr hx)

namespace Mat

/-- A matrix as one of Mathlib's. -/
def toMatrix (A : Mat α m n) : Matrix (Fin m) (Fin n) α :=
  Matrix.of fun i j => (A.get i).get j

theorem toMatrix_apply (A : Mat α m n) (i : Fin m) (j : Fin n) :
    toMatrix A i j = (A.get i).get j := rfl

theorem toMatrix_transpose (A : Mat α m n) :
    toMatrix (transpose A) = (toMatrix A)ᵀ := by
  ext i j
  simp [toMatrix_apply, transpose]

theorem toMatrix_scale (a : ℝ) (A : Mat ℝ m n) :
    toMatrix (scale a A) = a • toMatrix A := by
  ext i j
  simp [toMatrix_apply, scale]

theorem isSymm_scale {a : ℝ} {A : Mat ℝ n n} (hA : (toMatrix A).IsSymm) :
    (toMatrix (scale a A)).IsSymm := by
  rw [toMatrix_scale]
  exact hA.smul a

theorem mulVec_eq (A : Mat ℝ m n) (x : Vec ℝ n) :
    (mulVec A x).get = toMatrix A *ᵥ x.get := by
  funext i
  simp [mulVec, Vec.dot_eq_dotProduct, Matrix.mulVec, dotProduct, toMatrix_apply]

theorem toMatrix_gram (A : Mat ℝ m n) :
    toMatrix (gram A) = (toMatrix A)ᵀ * toMatrix A := by
  ext i j
  simp [gram, transpose, Vec.dot_eq_dotProduct, Matrix.mul_apply, dotProduct,
    toMatrix_apply]

theorem gram_isSymm (A : Mat ℝ m n) : (toMatrix (gram A)).IsSymm := by
  rw [toMatrix_gram, Matrix.IsSymm, Matrix.transpose_mul, Matrix.transpose_transpose]

/-- The form of a Gram matrix is the squared length of the image. -/
theorem form_gram (A : Mat ℝ m n) (x : Fin n → ℝ) :
    x ⬝ᵥ (toMatrix (gram A) *ᵥ x) = (toMatrix A *ᵥ x) ⬝ᵥ (toMatrix A *ᵥ x) := by
  rw [toMatrix_gram, ← Matrix.mulVec_mulVec, Matrix.dotProduct_mulVec,
    Matrix.vecMul_transpose]

theorem scale_one (A : Mat ℝ m n) : scale 1 A = A := by
  apply Vec.eq_of_get
  intro i
  rw [scale, Vec.get_map, Vec.scale_one]

theorem allFinite_real (A : Mat ℝ m n) : allFinite A = true := by
  simp [allFinite, Vec.allFinite_real]

theorem maxAbs_le_iff (A : Mat ℝ m n) (bound : ℝ) :
    maxAbs A ≤ bound ↔ 0 ≤ bound ∧ ∀ i j, |(A.get i).get j| ≤ bound := by
  have hmap : maxAbs A = (A.toList.map Vec.maxAbs).foldl Scalar.maxNaN 0 := by
    rw [List.foldl_map, Vector.foldl_toList]
    rfl
  rw [hmap, Vec.foldl_max_le_iff]
  simp only [Vec.toList_eq_ofFn, List.forall_mem_map, List.forall_mem_ofFn_iff,
    Vec.maxAbs_le_iff]
  constructor
  · rintro ⟨hbound, hrows⟩
    exact ⟨hbound, fun i => (hrows i).2⟩
  · rintro ⟨hbound, hentries⟩
    exact ⟨hbound, fun i => ⟨hbound, hentries i⟩⟩

/-- A symmetric matrix does not differ from its transpose. -/
theorem asymmetry_eq_zero {A : Mat ℝ n n} (hA : (toMatrix A).IsSymm) :
    asymmetry A = 0 := by
  have hentry (i j : Fin n) :
      ((Vector.zipWith Vec.sub A (transpose A)).get i).get j = 0 := by
    have hij := hA.apply i j
    simp only [toMatrix_apply] at hij
    simp [transpose, hij]
  apply le_antisymm
  · rw [asymmetry, maxAbs_le_iff]
    refine ⟨le_rfl, fun i j => ?_⟩
    rw [hentry, abs_zero]
  · exact ((maxAbs_le_iff _ _).mp le_rfl).1

end Mat

end SparseWeights
