import Mathlib
import SparseWeights.Proofs.Real

/-!
Comparisons that chain. What lies below a bound lies below every larger bound;
this is all that a test against a smaller tolerance needs. Doubles are compared
by sign, exponent and mantissa, so the numbers among them stand in a line. NaN
has no place in it, and every comparison with it fails.
-/

namespace SparseWeights

/-- Scalars below a bound are below all bounds above it. -/
class Scalar.Chains (α : Type) [Scalar α] : Prop where
  chain {a b c : α} : a < b → b ≤ c → a < c

instance : Scalar.Chains ℝ where
  chain := lt_of_lt_of_le

namespace Binary

open Float.Model Float.Model.UnpackedFloat

/-- The place of a double in the line, by side of zero, exponent and mantissa. -/
def place? : UnpackedFloat → Option (ℤ ×ₗ ℤ ×ₗ ℤ)
  | .notANumber => none
  | .infinity .negative => some (toLex (-2, toLex (0, 0)))
  | .finite .negative m e _ => some (toLex (-1, toLex (-e, -m)))
  | .zero _ => some (toLex (0, toLex (0, 0)))
  | .finite .positive m e _ => some (toLex (1, toLex (e, m)))
  | .infinity .positive => some (toLex (2, toLex (0, 0)))

theorem compare_toLex (s s' e e' m m' : ℤ) :
    compare (toLex (s, toLex (e, m))) (toLex (s', toLex (e', m'))) =
      (compare s s').then ((compare e e').then (compare m m')) := by
  simp only [Prod.Lex.compare_def]
  rfl

theorem compare_neg (x y : ℤ) : compare (-x) (-y) = (compare x y).swap := by
  rw [← Std.OrientedOrd.eq_swap, LinearOrder.compare_eq_compareOfLessAndEq,
    LinearOrder.compare_eq_compareOfLessAndEq]
  simp [compareOfLessAndEq, eq_comm]

theorem compare_cast (x y : ℕ) : compare (x : ℤ) (y : ℤ) = compare x y := by
  rw [LinearOrder.compare_eq_compareOfLessAndEq, LinearOrder.compare_eq_compareOfLessAndEq]
  simp [compareOfLessAndEq]

/-- Doubles compare as their places do. -/
theorem compare_eq_place (a b : UnpackedFloat) :
    a.compare b = (place? a).bind fun x => (place? b).map (compare x) := by
  rcases a with (_ | _) | _ | (_ | _) | ⟨_ | _, m, e, _⟩ <;>
    rcases b with (_ | _) | _ | (_ | _) | ⟨_ | _, m', e', _⟩ <;>
    simp only [UnpackedFloat.compare, place?, Option.bind_some, Option.map_some,
      compare_toLex, compare_neg, compare_cast, Ordering.swap_then] <;>
    rfl

theorem lt_iff_place (a b : UnpackedFloat) :
    a.lt b = true ↔ ∃ x y, place? a = some x ∧ place? b = some y ∧ x < y := by
  simp only [UnpackedFloat.lt, compare_eq_place, beq_iff_eq, Option.bind_eq_some_iff,
    Option.map_eq_some_iff, compare_lt_iff_lt, exists_and_left]

theorem le_iff_place (a b : UnpackedFloat) :
    a.le b = true ↔ ∃ x y, place? a = some x ∧ place? b = some y ∧ x ≤ y := by
  simp only [UnpackedFloat.le, compare_eq_place, Option.any_eq_true]
  cases place? a with
  | none => simp
  | some x =>
      cases place? b with
      | none => simp
      | some y =>
          simp only [Option.bind_some, Option.map_some, Option.some.injEq, exists_eq_left',
            exists_and_left, Ordering.isLE_iff_ne_gt, compare_gt_iff_gt, not_lt]

theorem place?_eq_none_iff (a : UnpackedFloat) : place? a = none ↔ a.isNaN = true := by
  rcases a with (_ | _) | _ | (_ | _) | ⟨_ | _, m, e, _⟩ <;>
    simp [place?, UnpackedFloat.isNaN]

theorem lt_iff (a b : Float) : a < b ↔ a.toModel.unpack.lt b.toModel.unpack = true :=
  decide_eq_true_iff

theorem le_iff (a b : Float) : a ≤ b ↔ a.toModel.unpack.le b.toModel.unpack = true :=
  decide_eq_true_iff

/-- One of two doubles lies above the other unless one of them is NaN. -/
theorem not_le_iff (a b : Float) : ¬ a ≤ b ↔ b < a ∨ a.isNaN = true ∨ b.isNaN = true := by
  have hnan (x : Float) : x.isNaN = true ↔ place? x.toModel.unpack = none :=
    (place?_eq_none_iff x.toModel.unpack).symm
  rw [le_iff, le_iff_place, lt_iff, lt_iff_place, hnan, hnan]
  cases place? a.toModel.unpack with
  | none => simp
  | some x =>
      cases place? b.toModel.unpack with
      | none => simp
      | some y => simp

theorem not_le_zero_iff (a : Float) : ¬ a ≤ 0 ↔ 0 < a ∨ a.isNaN = true := by
  have hzero : ¬ (0 : Float).isNaN = true := by
    decide
  rw [not_le_iff, or_iff_left hzero]

end Binary

instance : Scalar.Chains Float where
  chain {a b c} hab hbc := by
    obtain ⟨x, y, hx, hy, hxy⟩ := (Binary.lt_iff_place _ _).mp ((Binary.lt_iff a b).mp hab)
    obtain ⟨y', z, hy', hz, hyz⟩ := (Binary.le_iff_place _ _).mp ((Binary.le_iff b c).mp hbc)
    obtain rfl := Option.some.inj (hy.symm.trans hy')
    exact (Binary.lt_iff a c).mpr
      ((Binary.lt_iff_place _ _).mpr ⟨x, z, hx, hz, hxy.trans_le hyz⟩)

end SparseWeights
