import Mathlib.LinearAlgebra.Matrix.NonsingularInverse
import Mathlib.LinearAlgebra.Matrix.ToLin
import SparseWeights.Proofs.Admm.Descent
import SparseWeights.Proofs.Penalty.Slack

/-!
The gap of an iteration by its residuals. The two recorded objectives are taken
at points of different kinds: the primal one at weights that need not sum to one,
the dual one at the new multipliers. Their difference has three parts. The
Lagrangian at the new weights exceeds its least value by half the form of the
step that is left, which the move of `v` drives; the multiplier of the split gives
less than the penalty by the slack between `w` and `v`; and the multiplier of the
sum counts the miss of the sum. So the gap is small where the residuals and the
move of `v` are, as long as that last multiplier is bounded.
-/

namespace SparseWeights

open Finset Matrix

variable {n : ℕ}

/-- A form is bounded by the sum of the magnitudes of its coefficients. -/
theorem dotProduct_mulVec_le (A : Matrix (Fin n) (Fin n) ℝ) (x : Fin n → ℝ) :
    x ⬝ᵥ (A *ᵥ x) ≤ (∑ i, ∑ j, |A i j|) * (x ⬝ᵥ x) := by
  have hsquare (i : Fin n) : x i * x i ≤ x ⬝ᵥ x :=
    single_le_sum (f := fun k => x k * x k) (fun k _ => mul_self_nonneg (x k)) (mem_univ i)
  have hentry (i j : Fin n) : x i * (A i j * x j) ≤ |A i j| * (x ⬝ᵥ x) := by
    have hproduct : |x i * x j| ≤ x ⬝ᵥ x := by
      have htwice := two_mul_le_add_sq |x i| |x j|
      rw [sq_abs, sq_abs] at htwice
      rw [abs_mul]
      linarith [hsquare i, hsquare j]
    calc
      x i * (A i j * x j) = A i j * (x i * x j) := by ring
      _ ≤ |A i j| * |x i * x j| := (le_abs_self _).trans_eq (abs_mul _ _)
      _ ≤ |A i j| * (x ⬝ᵥ x) := mul_le_mul_of_nonneg_left hproduct (abs_nonneg _)
  calc
    x ⬝ᵥ (A *ᵥ x) = ∑ i, ∑ j, x i * (A i j * x j) := by
          simp only [dotProduct, Matrix.mulVec, mul_sum]
    _ ≤ ∑ i, ∑ j, |A i j| * (x ⬝ᵥ x) :=
          sum_le_sum fun i _ => sum_le_sum fun j _ => hentry i j
    _ = (∑ i, ∑ j, |A i j|) * (x ⬝ᵥ x) := by
          simp only [sum_mul]

/-- A bound on the form of a program, in terms of what its matrix makes of the
argument. -/
structure Program.FormBound (p : Program ℝ n) (bound : ℝ) : Prop where
  nonneg : 0 ≤ bound
  form_le : ∀ x : Fin n → ℝ, x ⬝ᵥ (Mat.toMatrix p.quadratic *ᵥ x) ≤
    bound * ((Mat.toMatrix p.quadratic *ᵥ x) ⬝ᵥ (Mat.toMatrix p.quadratic *ᵥ x))

theorem Program.exists_formBound (p : Program ℝ n) (hp : p.Symmetric) :
    ∃ bound, p.FormBound bound := by
  set Q := Mat.toMatrix p.quadratic with hQ
  have hkernel : ∀ x, Q *ᵥ x = 0 → x = 0 := by
    intro x hx
    by_contra hne
    have hpos := Factor.quadratic_pos_of_symmetric p.factor_eq hp hne
    rw [← hQ, hx, dotProduct_zero] at hpos
    exact lt_irrefl _ hpos
  -- The bound is that of the inverse, whose form is the same form read from `Q x`.
  have hinverse (x : Fin n → ℝ) : Q⁻¹ *ᵥ (Q *ᵥ x) = x := by
    have hinjective : Function.Injective Q.mulVec :=
      (injective_iff_map_eq_zero Q.mulVecLin).mpr hkernel
    have hunit := (Matrix.isUnit_iff_isUnit_det Q).mp
      (Matrix.mulVec_injective_iff_isUnit.mp hinjective)
    rw [Matrix.mulVec_mulVec, Matrix.nonsing_inv_mul Q hunit, Matrix.one_mulVec]
  refine ⟨∑ i, ∑ j, |Q⁻¹ i j|,
    sum_nonneg fun i _ => sum_nonneg fun j _ => abs_nonneg _, ?_⟩
  intro x
  have hbound := dotProduct_mulVec_le Q⁻¹ (Q *ᵥ x)
  rwa [hinverse, dotProduct_comm] at hbound

theorem Program.FormBound.form_le_of_mulVec_eq {p : Program ℝ n} {bound rho : ℝ}
    (hbound : p.FormBound bound) {x : Fin n → ℝ} {u v : Vec ℝ n}
    (hx : Mat.toMatrix p.quadratic *ᵥ x = rho • (u.get - v.get)) :
    x ⬝ᵥ (Mat.toMatrix p.quadratic *ᵥ x) ≤
      bound * (rho ^ 2 * Vec.distanceSq v u) := by
  have hnorm : (rho • (u.get - v.get)) ⬝ᵥ (rho • (u.get - v.get)) =
      rho ^ 2 * Vec.distanceSq v u := by
    rw [Vec.distanceSq_eq_sum, dotProduct, mul_sum]
    apply sum_congr rfl
    intro i _
    simp only [Pi.smul_apply, Pi.sub_apply, smul_eq_mul]
    ring
  have hform := hbound.form_le x
  rwa [hx, hnorm, ← hx] at hform

namespace Job

variable {job : Job ℝ n} {s : State ℝ n} {step : Step ℝ n}

/-- What the two recorded objectives differ by. -/
theorem Advances.exists_primal_sub_dual_eq (hjob : job.Accepted)
    (hadvances : job.Advances s step) :
    ∃ x : Fin n → ℝ,
      Mat.toMatrix job.program.quadratic *ᵥ x =
        job.system.rho • (s.v.get - step.next.v.get) ∧
      step.record.primal - step.record.dual =
        x ⬝ᵥ (Mat.toMatrix job.program.quadratic *ᵥ x) / 2 +
          (job.penalty.value step.w - Vec.dot step.next.alpha step.w) -
          step.next.beta * (Vec.total step.w - 1) := by
  have hsymmetric := hjob.program.symmetric
  obtain ⟨y, hy, hdual⟩ := job.program.exists_dualObjective?_eq hsymmetric
    step.next.alpha step.next.beta
  have hlagrangian := job.program.lagrangian_eq_add_form hsymmetric hy step.w
  refine ⟨step.w.get - y.get, ?_, ?_⟩
  · funext i
    have hi := hadvances.stationary i
    rw [Mat.mulVec_eq] at hi
    rw [Matrix.mulVec_sub, hy, Pi.sub_apply, Program.dualPoint_get, Pi.smul_apply,
      Pi.sub_apply, smul_eq_mul, ← hi]
    ring
  · rw [hadvances.primal_eq, Option.some.inj (hadvances.dual_eq.symm.trans hdual)]
    rw [Program.lagrangian] at hlagrangian
    linarith

/-- The multiplier of the split gives nearly the penalty, as `w` is near `v`. -/
theorem Advances.abs_slack_le (hjob : job.Accepted) (hadvances : job.Advances s step) :
    |job.penalty.value step.w - Vec.dot step.next.alpha step.w| ≤
      2 * (job.penalty.factor 0 * n) * step.record.primalResidual := by
  have hpenalty := hjob.penalty.falls
  have hslack := hadvances.subgradient.abs_value_sub_dot_le hpenalty step.w
  have hsplit : Vec.norm1 (Vec.sub step.w step.next.v) ≤
      n * step.record.primalResidual := by
    apply Vec.norm1_le_mul
    rw [hadvances.primalResidual_eq]
    exact le_max_left _ _
  have hscaled := mul_le_mul_of_nonneg_left hsplit (hpenalty.nonneg 0)
  linarith

/-- The bound on the gap, for a bound on the form of the program. -/
theorem Advances.gap_le (hjob : job.Accepted) (hadvances : job.Advances s step)
    {bound : ℝ} (hbound : job.program.FormBound bound) :
    step.record.gap ≤
      bound / 2 * job.system.rho ^ 2 * Vec.distanceSq step.next.v s.v +
        (2 * (job.penalty.factor 0 * n) + |step.next.beta|) *
          step.record.primalResidual := by
  obtain ⟨x, hx, hdifference⟩ := hadvances.exists_primal_sub_dual_eq hjob
  have hform := hbound.form_le_of_mulVec_eq hx
  have hform_nonneg := Factor.quadratic_nonneg_of_symmetric job.program.factor_eq
    hjob.program.symmetric x
  have hslack := hadvances.abs_slack_le hjob
  have hsum : |step.next.beta * (Vec.total step.w - 1)| ≤
      |step.next.beta| * step.record.primalResidual := by
    rw [abs_mul, hadvances.primalResidual_eq]
    exact mul_le_mul_of_nonneg_left (le_max_right _ _) (abs_nonneg _)
  calc
    step.record.gap ≤ |step.record.primal - step.record.dual| := by
          rw [hadvances.gap_eq]
          exact div_le_self (abs_nonneg _) (le_max_left _ _)
    _ ≤ x ⬝ᵥ (Mat.toMatrix job.program.quadratic *ᵥ x) / 2 +
          |job.penalty.value step.w - Vec.dot step.next.alpha step.w| +
          |step.next.beta * (Vec.total step.w - 1)| := by
          rw [hdifference]
          refine (abs_sub _ _).trans (add_le_add_left ?_ _)
          refine (abs_add_le _ _).trans (add_le_add_left ?_ _)
          rw [abs_of_nonneg (div_nonneg hform_nonneg zero_le_two)]
    _ ≤ _ := by linarith

end Job

end SparseWeights
