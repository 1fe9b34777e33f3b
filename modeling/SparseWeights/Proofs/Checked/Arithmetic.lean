import SparseWeights.Proofs.Linear.Vec

/-!
Real arithmetic that notices what it is not defined for. A quotient by zero and the
root of a negative number are undefined, and so is everything computed from
something undefined; a comparison with it fails. As long as no such thing happens
the numbers are those of real arithmetic, in scalars, sums, products and matrices.
-/

namespace SparseWeights

/-- A real number, or what an operation gives outside of its domain. -/
inductive Checked where
  | number (x : ℝ)
  | undefined

namespace Checked

noncomputable section

def map₂ (f : ℝ → ℝ → ℝ) : Checked → Checked → Checked
  | number x, number y => number (f x y)
  | _, _ => undefined

def div : Checked → Checked → Checked
  | number x, number y => if y = 0 then undefined else number (x / y)
  | _, _ => undefined

def map (f : ℝ → ℝ) : Checked → Checked
  | number x => number (f x)
  | undefined => undefined

def sqrt : Checked → Checked
  | number x => if 0 ≤ x then number (Real.sqrt x) else undefined
  | undefined => undefined

/-- A comparison that only numbers can pass. -/
def holds (test : ℝ → ℝ → Prop) (a b : Checked) : Prop :=
  ∃ x y, a = number x ∧ b = number y ∧ test x y

open Classical in
instance : Scalar Checked where
  zero := number 0
  one := number 1
  add := map₂ (· + ·)
  sub := map₂ (· - ·)
  mul := map₂ (· * ·)
  div := div
  neg := map (- ·)
  lt := holds (· < ·)
  le := holds (· ≤ ·)
  ofNat k := number k
  abs := map (|·|)
  sqrt := sqrt
  isFinite
    | number _ => true
    | undefined => false
  decidableLT := inferInstance
  decidableLE := inferInstance

end

variable (x y : ℝ)

theorem zero_eq : (0 : Checked) = number 0 := rfl

theorem one_eq : (1 : Checked) = number 1 := rfl

@[simp] theorem number_add : number x + number y = number (x + y) := rfl

@[simp] theorem number_sub : number x - number y = number (x - y) := rfl

@[simp] theorem number_mul : number x * number y = number (x * y) := rfl

@[simp] theorem number_neg : -number x = number (-x) := rfl

theorem number_div {y : ℝ} (hy : y ≠ 0) : number x / number y = number (x / y) :=
  if_neg hy

theorem number_sqrt {x : ℝ} (hx : 0 ≤ x) :
    Scalar.sqrt (number x) = number (Scalar.sqrt x) := if_pos hx

@[simp] theorem number_abs : Scalar.abs (number x) = number |x| := rfl

@[simp] theorem number_ofNat (k : ℕ) : (Scalar.ofNat k : Checked) = number k := rfl

@[simp] theorem number_isFinite : Scalar.isFinite (number x) = true := rfl

@[simp] theorem number_lt : number x < number y ↔ x < y := by
  constructor
  · rintro ⟨_, _, ⟨⟩, ⟨⟩, h⟩
    exact h
  · exact fun h => ⟨x, y, rfl, rfl, h⟩

@[simp] theorem number_le : number x ≤ number y ↔ x ≤ y := by
  constructor
  · rintro ⟨_, _, ⟨⟩, ⟨⟩, h⟩
    exact h
  · exact fun h => ⟨x, y, rfl, rfl, h⟩

@[simp] theorem number_isNaN : Scalar.isNaN (number x) = false := by
  simp [Scalar.isNaN]

@[simp] theorem number_maxNaN :
    Scalar.maxNaN (number x) (number y) = number (Scalar.maxNaN x y) := by
  simp only [Scalar.maxNaN, number_le, number_isNaN, Scalar.isNaN_eq_false]
  split
  · rfl
  · rfl

@[simp] theorem number_larger :
    Scalar.larger (number x) (number y) = number (Scalar.larger x y) := by
  simp only [Scalar.larger, number_lt]
  split
  · rfl
  · rfl

@[simp] theorem number_sign : Scalar.sign (number x) = number (Scalar.sign x) := by
  simp only [Scalar.sign, zero_eq, one_eq, number_lt, number_le]
  split
  · rfl
  · split
    · rfl
    · split
      · rfl
      · rfl

theorem number_half : (Scalar.half : Checked) = number Scalar.half := by
  have htwo : (1 + 1 : ℝ) ≠ 0 := by
    norm_num
  exact number_div 1 htwo

theorem zipWith_number {op : Checked → Checked → Checked} {op' : ℝ → ℝ → ℝ}
    (hop : ∀ x y, op (.number x) (.number y) = .number (op' x y)) (xs ys : List ℝ) :
    List.zipWith op (xs.map .number) (ys.map .number) =
      (List.zipWith op' xs ys).map .number := by
  rw [List.zipWith_map, List.map_zipWith]
  congr 1
  funext x y
  exact hop x y

theorem foldl_number {step : Checked → Checked → Checked} {step' : ℝ → ℝ → ℝ}
    (hstep : ∀ s x, step (.number s) (.number x) = .number (step' s x)) (xs : List ℝ) :
    (xs.map number).foldl step 0 = .number (xs.foldl step' 0) := by
  rw [List.foldl_map, zero_eq]
  exact List.foldl_hom number hstep

end Checked

namespace Vec

variable {n : ℕ}

/-- The vector as one of defined numbers. -/
abbrev checked (v : Vec ℝ n) : Vec Checked n := v.map .number

theorem foldl_checked {step : Checked → Checked → Checked} {step' : ℝ → ℝ → ℝ}
    (hstep : ∀ s x, step (.number s) (.number x) = .number (step' s x)) (v : Vec ℝ n) :
    v.checked.foldl step 0 = .number (v.foldl step' 0) := by
  rw [← Vector.foldl_toList, Vector.toList_map, Checked.foldl_number hstep,
    Vector.foldl_toList]

variable (u v : Vec ℝ n)

theorem pop_checked {n : ℕ} (v : Vec ℝ (n + 1)) : v.checked.pop = checked v.pop :=
  Vector.map_pop.symm

theorem back_checked {n : ℕ} (v : Vec ℝ (n + 1)) : v.checked.back = .number v.back := by
  simp

theorem push_checked (x : ℝ) : v.checked.push (.number x) = checked (v.push x) :=
  Vector.map_push.symm

@[simp] theorem total_checked : total v.checked = .number (total v) :=
  foldl_checked Checked.number_add v

@[simp] theorem add_checked : add u.checked v.checked = (add u v).checked := by
  apply eq_of_get
  simp [add]

@[simp] theorem sub_checked : sub u.checked v.checked = (sub u v).checked := by
  apply eq_of_get
  simp [sub]

@[simp] theorem scale_checked (a : ℝ) :
    scale (.number a) v.checked = (scale a v).checked := by
  apply eq_of_get
  simp [scale]

@[simp] theorem dot_checked : dot u.checked v.checked = .number (dot u v) := by
  rw [dot, dot, ← total_checked]
  congr 1
  apply eq_of_get
  simp

@[simp] theorem magnitudes_checked : magnitudes v.checked = (magnitudes v).checked := by
  apply eq_of_get
  simp [magnitudes]

@[simp] theorem norm1_checked : norm1 v.checked = .number (norm1 v) := by
  rw [norm1, magnitudes_checked, total_checked, norm1]

@[simp] theorem maxAbs_checked : maxAbs v.checked = .number (maxAbs v) :=
  foldl_checked (fun s x => Checked.number_maxNaN s |x|) v

@[simp] theorem allFinite_checked : allFinite v.checked = true := by
  simp [allFinite]

end Vec

namespace Mat

variable {m n : ℕ}

abbrev checked (A : Mat ℝ m n) : Mat Checked m n := A.map Vec.checked

variable (A : Mat ℝ m n)

@[simp] theorem transpose_checked : transpose A.checked = (transpose A).checked := by
  apply Vec.eq_of_get
  intro i
  apply Vec.eq_of_get
  simp [transpose]

@[simp] theorem scale_checked (a : ℝ) :
    scale (.number a) A.checked = (scale a A).checked := by
  apply Vec.eq_of_get
  simp [scale]

@[simp] theorem mulVec_checked (x : Vec ℝ n) :
    mulVec A.checked x.checked = (mulVec A x).checked := by
  apply Vec.eq_of_get
  simp [mulVec]

@[simp] theorem gram_checked : gram A.checked = (gram A).checked := by
  apply Vec.eq_of_get
  intro i
  apply Vec.eq_of_get
  simp [gram]

@[simp] theorem allFinite_checked : allFinite A.checked = true := by
  simp [allFinite]

end Mat

end SparseWeights
