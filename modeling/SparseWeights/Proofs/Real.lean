import Mathlib.Analysis.Real.Sqrt
import Mathlib.Tactic
import SparseWeights.Scalar

/-!
The real numbers as scalars. Every algorithm of this library is written over
`Scalar`; here it gets the second of its two readings, the exact one, in which
the laws of an ordered field hold. All reals are finite and none is NaN, so the
comparisons that look after NaN turn into maximum and minimum.
-/

namespace SparseWeights

-- Without this shortcut the division that a quotient of reals means would depend
-- on the order of the imports: it could be looked up through `Scalar` as well.
noncomputable instance divReal : Div ℝ := DivInvMonoid.toDiv

noncomputable instance : Scalar ℝ where
  ofNat := Nat.cast
  abs := fun x => |x|
  sqrt := Real.sqrt
  isFinite := fun _ => true
  decidableLT := inferInstance
  decidableLE := inferInstance

namespace Scalar

@[simp] theorem ofNat_eq_cast (k : Nat) : (Scalar.ofNat k : ℝ) = k := rfl

@[simp] theorem abs_eq_abs (x : ℝ) : Scalar.abs x = |x| := rfl

@[simp] theorem sqrt_eq_sqrt (x : ℝ) : Scalar.sqrt x = Real.sqrt x := rfl

@[simp] theorem isFinite_eq_true (x : ℝ) : Scalar.isFinite x = true := rfl

@[simp] theorem isNaN_eq_false (x : ℝ) : isNaN x = false := by
  simp [isNaN]

@[simp] theorem maxNaN_eq_max (a b : ℝ) : maxNaN a b = max a b := by
  rcases le_total b a with h | h
  · simp [maxNaN, h]
  · rcases h.eq_or_lt with rfl | hlt
    · simp [maxNaN]
    · simp [maxNaN, hlt.not_ge, h]

@[simp] theorem minNaN_eq_min (a b : ℝ) : minNaN a b = min a b := by
  simp [minNaN, min_def]

@[simp] theorem larger_eq_max (a b : ℝ) : larger a b = max a b := by
  rcases lt_or_ge a b with h | h
  · simp [larger, h, h.le]
  · simp [larger, h.not_gt, h]

@[simp] theorem half_eq : (half : ℝ) = 1 / 2 := by
  unfold half
  norm_num

theorem sign_mul_abs (x : ℝ) : sign x * |x| = x := by
  unfold sign
  rcases lt_trichotomy x 0 with h | rfl | h
  · simp [h, h.not_gt, abs_of_neg h]
  · simp
  · simp [h, abs_of_pos h]

theorem sign_mul_sign (x : ℝ) (hx : x ≠ 0) : sign x * sign x = 1 := by
  unfold sign
  rcases lt_or_gt_of_ne hx with h | h
  · simp [h, h.not_gt]
  · simp [h]

theorem abs_sign (x : ℝ) (hx : x ≠ 0) : |sign x| = 1 := by
  unfold sign
  rcases lt_or_gt_of_ne hx with h | h
  · simp [h, h.not_gt]
  · simp [h]

@[simp] theorem sign_zero : sign (0 : ℝ) = 0 := by
  simp [sign]

theorem abs_sign_le_one (x : ℝ) : |sign x| ≤ 1 := by
  rcases eq_or_ne x 0 with rfl | hx
  · simp
  · exact (abs_sign x hx).le

theorem sign_mul_self (x : ℝ) : sign x * x = |x| := by
  rcases eq_or_ne x 0 with rfl | hx
  · simp
  · nth_rewrite 2 [← sign_mul_abs x]
    rw [← mul_assoc, sign_mul_sign x hx, one_mul]

end Scalar

end SparseWeights
