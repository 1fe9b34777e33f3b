import SparseWeights.Proofs.Penalty.Ranks
import SparseWeights.Penalty.Spec

/-!
Penalties in other units. The factors of a penalty are measured like the
objective, so another unit multiplies all of them, and the step size with them.
The thresholds of the proximal map are factors divided by the step size and keep
their values; value and dual test are measured like the factors. The checks on
factors compare signs and neighbours and come to the same in every unit.
-/

namespace SparseWeights

variable {n : ℕ} {unit : ℝ}

namespace Vec

theorem toList_scale (v : Vec ℝ n) : (scale unit v).toList = v.toList.map (unit * ·) :=
  Vector.toList_map

theorem Ranks.scale {v : Vec ℝ n} {places : Equiv.Perm (Fin n)} (h : v.Ranks places) :
    (Vec.scale unit v).Ranks places := by
  intro j k hjk
  simp only [get_scale, abs_mul]
  exact mul_le_mul_of_nonneg_left (h hjk) (abs_nonneg unit)

theorem descending_scale (hunit : 0 ≤ unit) (v : Vec ℝ n) :
    descending (scale unit v) = (descending v).map (unit * ·) := by
  obtain ⟨places, _, hplaces⟩ := exists_ranks v
  rw [descending_eq_ofFn hplaces, descending_eq_ofFn hplaces.scale, List.map_ofFn]
  congr 1
  funext k
  simp [abs_mul, abs_of_nonneg hunit]

/-- The largest of some numbers in another unit. -/
private theorem foldl_max_scale (hunit : 0 ≤ unit) (xs : List ℝ) (start : ℝ) :
    (xs.map (unit * ·)).foldl Scalar.maxNaN (unit * start) =
      unit * xs.foldl Scalar.maxNaN start := by
  induction xs generalizing start with
  | nil => rfl
  | cons x rest ih =>
      have hmax : Scalar.maxNaN (unit * start) (unit * x) = unit * Scalar.maxNaN start x := by
        simp [mul_max_of_nonneg _ _ hunit]
      rw [List.map_cons, List.foldl_cons, List.foldl_cons, hmax, ih]

theorem maxAbs_scale (hunit : 0 ≤ unit) (v : Vec ℝ n) :
    maxAbs (scale unit v) = unit * maxAbs v := by
  have hmap : (scale unit v).toList.map (fun x => |x|) =
      (v.toList.map fun x => |x|).map (unit * ·) := by
    simp [toList_scale, Function.comp_def, abs_mul, abs_of_nonneg hunit]
  rw [maxAbs_eq_foldl, hmap, maxAbs_eq_foldl, ← foldl_max_scale hunit, mul_zero]

end Vec

private theorem prefixSums_scale (xs : List ℝ) (start : ℝ) :
    prefixSums (unit * start) (xs.map (unit * ·)) =
      (prefixSums start xs).map (unit * ·) := by
  induction xs generalizing start with
  | nil => rfl
  | cons x rest ih =>
      simp only [List.map_cons, prefixSums, ← mul_add, ih]

namespace Penalty

/-- The penalty in the unit of which the old one holds so many. -/
noncomputable def inUnits (unit : ℝ) : Penalty ℝ n → Penalty ℝ n
  | l1 lam => .l1 (unit * lam)
  | sortedL1 lam => .sortedL1 (Vec.scale unit lam)

theorem value_inUnits (p : Penalty ℝ n) (w : Vec ℝ n) :
    (p.inUnits unit).value w = unit * p.value w := by
  cases p with
  | l1 lam => exact mul_assoc unit lam _
  | sortedL1 lam =>
      set products := List.zipWith (fun l x => l * x) lam.toList (Vec.descending w)
        with hproducts
      have hscaled :
          List.zipWith (fun l x => l * x) (Vec.scale unit lam).toList (Vec.descending w) =
            products.map (unit * ·) := by
        simp [hproducts, Vec.toList_scale, List.zipWith_map_left, List.map_zipWith,
          mul_assoc]
      rw [inUnits, value, hscaled, Vec.foldl_add_zero, List.sum_map_mul_left, List.map_id',
        value, Vec.foldl_add_zero]

/-- The thresholds have no unit. -/
theorem prox_inUnits (hunit : unit ≠ 0) (p : Penalty ℝ n) (y : Vec ℝ n) (rho : ℝ) :
    (p.inUnits unit).prox y (1 / (unit * rho)) = p.prox y (1 / rho) := by
  have hthreshold (lam : ℝ) : 1 / (unit * rho) * (unit * lam) = 1 / rho * lam := by
    rw [div_mul_eq_mul_div, one_mul, mul_div_mul_left _ _ hunit, div_mul_eq_mul_div,
      one_mul]
  cases p with
  | l1 lam => simp only [inUnits, prox, hthreshold]
  | sortedL1 lam =>
      have hthresholds : Vec.scale (1 / (unit * rho)) (Vec.scale unit lam) =
          Vec.scale (1 / rho) lam := by
        apply Vec.eq_of_get
        intro i
        rw [Vec.get_scale, Vec.get_scale, Vec.get_scale, hthreshold]
      rw [inUnits, prox, hthresholds, prox]

theorem dualInfeasibility_inUnits (hunit : 0 ≤ unit) (p : Penalty ℝ n) (alpha : Vec ℝ n) :
    (p.inUnits unit).dualInfeasibility (Vec.scale unit alpha) =
      unit * p.dualInfeasibility alpha := by
  cases p with
  | l1 lam =>
      rw [inUnits, dualInfeasibility, Vec.maxAbs_scale hunit, dualInfeasibility,
        Scalar.larger_eq_max, Scalar.larger_eq_max, ← mul_sub, mul_max_of_nonneg _ _ hunit,
        mul_zero]
  | sortedL1 lam =>
      set excess := List.zipWith (fun a l => a - l) (Vec.descending alpha) lam.toList
        with hexcess
      have hscaled :
          List.zipWith (fun a l => a - l) (Vec.descending (Vec.scale unit alpha))
            (Vec.scale unit lam).toList = excess.map (unit * ·) := by
        simp [hexcess, Vec.descending_scale hunit, Vec.toList_scale, List.zipWith_map,
          List.map_zipWith, mul_sub]
      have hsums : prefixSums 0 (excess.map (unit * ·)) =
          (prefixSums 0 excess).map (unit * ·) := by
        simpa using prefixSums_scale excess 0
      have hlargest := Vec.foldl_max_scale hunit (prefixSums 0 excess) 0
      rw [mul_zero] at hlargest
      rw [inUnits, dualInfeasibility, hscaled, hsums, hlargest, dualInfeasibility]

end Penalty

namespace PenaltySpec

/-- The factors in the unit of which the old one holds so many. -/
noncomputable def inUnits (unit : ℝ) : PenaltySpec ℝ → PenaltySpec ℝ
  | l1 lam => .l1 (unit * lam)
  | sortedL1 lam => .sortedL1 (lam.map (unit * ·))

theorem ascends_scale (hunit : 0 < unit) (lam : List ℝ) :
    ascends (lam.map (unit * ·)) = ascends lam := by
  induction lam with
  | nil => rfl
  | cons x rest ih =>
      cases rest with
      | nil => rfl
      | cons y rest =>
          have hstep : 0 < unit * y - unit * x ↔ 0 < y - x := by
            rw [← mul_sub, mul_pos_iff_of_pos_left hunit]
          rw [List.map_cons] at ih
          rw [List.map_cons, List.map_cons, ascends, ih, decide_eq_decide.mpr hstep, ascends]

/-- The checks let factors through, or refuse them with the same cause, whatever
the unit is. -/
theorem make_inUnits (hunit : 0 < unit) (kind : PenaltyKind) (lam : List ℝ)
    (dimension : Option Int) :
    make kind (lam.map (unit * ·)) dimension =
      (make kind lam dimension).map (inUnits unit) := by
  have hnegative (x : ℝ) : unit * x < 0 ↔ x < 0 := by
    rw [← not_le, mul_nonneg_iff_of_pos_left hunit, not_le]
  cases kind with
  | l1 =>
      match lam with
      | [] => rfl
      | [x] =>
          simp only [make, List.map_cons, List.map_nil, ofFactor, hnegative,
            Scalar.isFinite_eq_true, apply_ite (Except.map (inUnits unit))]
          rfl
      | x :: y :: rest => simp [make, ofFactor, Except.map]
  | sortedL1 =>
      have hany : (lam.map (unit * ·)).any (fun x => decide (x < 0)) =
          lam.any fun x => decide (x < 0) := by
        simp [List.any_map, Function.comp_def, hnegative]
      simp only [make, ofFactors, List.length_map, List.isEmpty_map, hany,
        ascends_scale hunit, List.any_map, Function.comp_def, Scalar.isFinite_eq_true,
        apply_ite (Except.map (inUnits unit))]
      rfl

theorem fit_inUnits (spec : PenaltySpec ℝ) (n : ℕ) :
    (spec.inUnits unit).fit n = (spec.fit n).map (Penalty.inUnits unit) := by
  cases spec with
  | l1 lam => rfl
  | sortedL1 lam =>
      by_cases hlength : lam.length = n
      · simp [inUnits, fit, hlength, Except.map, Penalty.inUnits, Vec.scale]
      · simp [inUnits, fit, hlength, Except.map]

end PenaltySpec

end SparseWeights
