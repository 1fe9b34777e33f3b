import SparseWeights.Proofs.Admm.Invariant

/-!
The distance of the iterates from a saddle point. The multipliers count with
the inverse of the step size and the weights with the step size itself, and then
no iteration moves away: the potential falls by at least the squared distance
between the new `w` and the old `v` plus the squared miss of the sum. From the
second iteration on both ends of the move of `v` carry subgradients, so that the
two parts of that distance may be counted apart.
-/

namespace SparseWeights

open Finset

variable {n : ℕ}

/-- A saddle point of the problem: weights that sum to one with multipliers for
which they are stationary, the one of the split being a subgradient. -/
structure Program.IsSaddle (program : Program ℝ n) (penalty : Penalty ℝ n)
    (star : State ℝ n) : Prop where
  stationary : ∀ k, (Mat.mulVec program.quadratic star.v).get k -
    program.linear.get k + star.alpha.get k + star.beta = 0
  total_eq : Vec.total star.v = 1
  dualFeasible : penalty.dualInfeasibility star.alpha = 0
  tight : Vec.dot star.alpha star.v = penalty.value star.v

namespace Job

variable {job : Job ℝ n}

/-- The weighted distance of a state from another one. -/
noncomputable def potential (job : Job ℝ n) (star s : State ℝ n) : ℝ :=
  (Vec.distanceSq s.alpha star.alpha + (s.beta - star.beta) ^ 2) / job.system.rho +
    job.system.rho * Vec.distanceSq s.v star.v

theorem potential_nonneg (hrho : 0 < job.system.rho) (star s : State ℝ n) :
    0 ≤ job.potential star s := by
  have halpha := Vec.distanceSq_nonneg s.alpha star.alpha
  have hv := Vec.distanceSq_nonneg s.v star.v
  exact add_nonneg (div_nonneg (add_nonneg halpha (sq_nonneg _)) hrho.le)
    (mul_nonneg hrho.le hv)

theorem potential_self (s : State ℝ n) : job.potential s s = 0 := by
  simp [potential, Vec.distanceSq_eq_zero_iff.mpr]

/-- The change of the potential, whatever the other point is. -/
private theorem potential_eq (hrho : 0 < job.system.rho) {s : State ℝ n}
    {step : Step ℝ n} (hadvances : job.Advances s step) (star : State ℝ n) :
    job.potential star step.next + job.system.rho *
        (Vec.distanceSq step.w s.v + (Vec.total step.w - 1) ^ 2) =
      job.potential star s + 2 *
        (∑ k, (step.next.alpha.get k - star.alpha.get k) *
            (step.w.get k - step.next.v.get k) +
          (step.next.beta - star.beta) * (Vec.total step.w - 1) -
          job.system.rho * ∑ k, (s.v.get k - step.next.v.get k) *
            (step.w.get k - star.v.get k)) := by
  set rho := job.system.rho with hrhodef
  have hentry (k : Fin n) :
      (step.next.alpha.get k - star.alpha.get k) ^ 2 / rho +
          rho * (step.next.v.get k - star.v.get k) ^ 2 +
          rho * (step.w.get k - s.v.get k) ^ 2 =
        (s.alpha.get k - star.alpha.get k) ^ 2 / rho +
          rho * (s.v.get k - star.v.get k) ^ 2 +
          2 * ((step.next.alpha.get k - star.alpha.get k) *
            (step.w.get k - step.next.v.get k) -
            rho * ((s.v.get k - step.next.v.get k) *
              (step.w.get k - star.v.get k))) := by
    rw [hadvances.alpha_eq k]
    field_simp
    ring
  have hentries := sum_congr (rfl : (univ : Finset (Fin n)) = univ)
    fun k _ => hentry k
  simp only [sum_add_distrib, sum_sub_distrib, ← mul_sum, ← sum_div] at hentries
  have hbeta : (step.next.beta - star.beta) ^ 2 / rho +
        rho * (Vec.total step.w - 1) ^ 2 =
      (s.beta - star.beta) ^ 2 / rho +
        2 * ((step.next.beta - star.beta) * (Vec.total step.w - 1)) := by
    rw [hadvances.beta_eq]
    field_simp
    ring
  simp only [potential, Vec.distanceSq_eq_sum, add_div, ← hrhodef]
  linear_combination hentries + hbeta

/-- At a saddle point the stationarity of the new weights and the monotonicity of
subgradients settle the sign of that change. -/
private theorem cross_nonpos (hjob : job.Accepted) {star s : State ℝ n}
    {step : Step ℝ n} (hstar : job.program.IsSaddle job.penalty star)
    (hadvances : job.Advances s step) :
    ∑ k, (step.next.alpha.get k - star.alpha.get k) *
          (step.w.get k - step.next.v.get k) +
        (step.next.beta - star.beta) * (Vec.total step.w - 1) ≤
      job.system.rho * ∑ k, (s.v.get k - step.next.v.get k) *
        (step.w.get k - star.v.get k) := by
  have hsubgradient : job.penalty.IsSubgradient star.v star.alpha :=
    (Penalty.isSubgradient_iff hjob.penalty.falls).mpr
      ⟨hstar.dualFeasible, hstar.tight⟩
  have hmonotone := hadvances.subgradient.monotone hsubgradient
  have hform := Factor.quadratic_nonneg_of_symmetric job.program.factor_eq
    hjob.program.symmetric (step.w.get - star.v.get)
  rw [Vec.dot_eq_dotProduct, dotProduct] at hmonotone
  simp only [Matrix.mulVec_sub, dotProduct, Pi.sub_apply, ← Mat.mulVec_eq] at hform
  have htotal : ∑ k, (step.w.get k - star.v.get k) = Vec.total step.w - 1 := by
    rw [sum_sub_distrib, ← Vec.total_eq_sum, ← Vec.total_eq_sum, hstar.total_eq]
  -- The difference of the two stationarity equations, paired with `w - w*`.
  have hentry (k : Fin n) :
      (step.w.get k - star.v.get k) *
            ((Mat.mulVec job.program.quadratic step.w).get k -
              (Mat.mulVec job.program.quadratic star.v).get k) +
          (step.next.alpha.get k - star.alpha.get k) *
            (step.next.v.get k - star.v.get k) +
          ((step.next.alpha.get k - star.alpha.get k) *
            (step.w.get k - step.next.v.get k) +
          (step.next.beta - star.beta) * (step.w.get k - star.v.get k)) =
        job.system.rho * ((s.v.get k - step.next.v.get k) *
          (step.w.get k - star.v.get k)) := by
    linear_combination (step.w.get k - star.v.get k) *
      (hadvances.stationary k - hstar.stationary k)
  have hentries := sum_congr (rfl : (univ : Finset (Fin n)) = univ)
    fun k _ => hentry k
  simp only [sum_add_distrib, ← mul_sum, htotal] at hentries
  simp only [Vec.get_sub] at hmonotone
  linarith

/-- The descent of one iteration, from whatever state. -/
theorem Advances.potential_le (hjob : job.Accepted) {star s : State ℝ n}
    {step : Step ℝ n} (hstar : job.program.IsSaddle job.penalty star)
    (hadvances : job.Advances s step) :
    job.potential star step.next ≤ job.potential star s - job.system.rho *
      (Vec.distanceSq step.w s.v + (Vec.total step.w - 1) ^ 2) := by
  have hchange := potential_eq hjob.rho_pos hadvances star
  have hcross := cross_nonpos hjob hstar hadvances
  linarith

/-- If the old multiplier is a subgradient too, the new weights move away from
the new `v` at a right or an obtuse angle to the move of `v`. -/
theorem Advances.distanceSq_add_le (hrho : 0 < job.system.rho) {s : State ℝ n}
    {step : Step ℝ n} (hadvances : job.Advances s step)
    (hs : job.penalty.IsSubgradient s.v s.alpha) :
    Vec.distanceSq step.w step.next.v + Vec.distanceSq step.next.v s.v ≤
      Vec.distanceSq step.w s.v := by
  have hmonotone := hadvances.subgradient.monotone hs
  have hangle : Vec.dot (Vec.sub step.next.alpha s.alpha) (Vec.sub step.next.v s.v) =
      job.system.rho * ∑ k, (step.w.get k - step.next.v.get k) *
        (step.next.v.get k - s.v.get k) := by
    rw [Vec.dot_eq_dotProduct, dotProduct, mul_sum]
    apply sum_congr rfl
    intro k _
    rw [Vec.get_sub, Vec.get_sub, hadvances.alpha_eq k]
    ring
  have hinner : 0 ≤ ∑ k, (step.w.get k - step.next.v.get k) *
      (step.next.v.get k - s.v.get k) := by
    rw [hangle] at hmonotone
    exact nonneg_of_mul_nonneg_right hmonotone hrho
  have hsplit : Vec.distanceSq step.w s.v =
      Vec.distanceSq step.w step.next.v + Vec.distanceSq step.next.v s.v +
        2 * ∑ k, (step.w.get k - step.next.v.get k) *
          (step.next.v.get k - s.v.get k) := by
    simp only [Vec.distanceSq_eq_sum, mul_sum, ← sum_add_distrib]
    apply sum_congr rfl
    intro k _
    ring
  linarith

/-- Lyapunov descent along a run. Every iteration takes from the potential the
squared distance of the new `w` from the old `v` and the squared miss of the sum;
every one but the first also takes the squared residual of the split and the
squared move of `v` apart. These are the iterations that every run goes along. -/
theorem Accepted.potential_descends (hjob : job.Accepted) {star : State ℝ n}
    (hstar : job.program.IsSaddle job.penalty star) {i : ℕ} {s : State ℝ n}
    {step : Step ℝ n} (hs : job.stateAfter i = .ok s)
    (hstep : job.stepAfter i = .ok step) :
    job.potential star step.next ≤ job.potential star s - job.system.rho *
        (Vec.distanceSq step.w s.v + (Vec.total step.w - 1) ^ 2) ∧
      (0 < i → job.potential star step.next ≤ job.potential star s -
        job.system.rho * (Vec.distanceSq step.w step.next.v +
          (Vec.total step.w - 1) ^ 2 + Vec.distanceSq step.next.v s.v)) ∧
      ∀ elapsed, job.RunsAlong elapsed := by
  have hadvances := hjob.advances_of_step hs hstep
  have hdescent := hadvances.potential_le hjob hstar
  refine ⟨hdescent, ?_, job.runsAlong⟩
  intro hi
  have hsubgradient := hjob.subgradient_of_state hi hs
  have hdistance := hadvances.distanceSq_add_le hjob.rho_pos hsubgradient
  have hscaled := mul_le_mul_of_nonneg_left hdistance hjob.rho_pos.le
  linarith

theorem pairProgram_isSaddle {program : Program ℝ 2}
    (hobjective : program.objective = .leastSquares pairDesign pairResponse) :
    program.IsSaddle pairPenalty ⟨#v[19 / 20, 1 / 20], #v[1 / 5, 1 / 10], -3 / 20⟩ := by
  obtain ⟨hquadratic, hlinear, _⟩ := pairProgram_spec hobjective
  constructor
  · intro k
    rw [Mat.mulVec_eq, hquadratic, Matrix.one_mulVec, hlinear]
    fin_cases k
    · change (19 / 20 - 1 + 1 / 5 + -3 / 20 : ℝ) = 0
      norm_num
    · change (1 / 20 - 0 + 1 / 10 + -3 / 20 : ℝ) = 0
      norm_num
  · rw [pair_total]
    norm_num
  · rw [pairPenalty.dualInfeasibility_eq_zero_iff pairPenalty_falls]
    exact pairPenalty_inBall (by norm_num) (by norm_num) le_rfl (by norm_num)
  · rw [pairPenalty_value (by norm_num) (by norm_num), pair_dot]

/-- The descent of the second iteration on two weights. -/
theorem potential_descends_pair :
    ∃ job : Job ℝ 2, job.IsPair ∧
      job.program.IsSaddle job.penalty
        ⟨#v[19 / 20, 1 / 20], #v[1 / 5, 1 / 10], -3 / 20⟩ ∧
      ∃ s step, job.stateAfter 1 = .ok s ∧ job.stepAfter 1 = .ok step ∧
        job.potential ⟨#v[19 / 20, 1 / 20], #v[1 / 5, 1 / 10], -3 / 20⟩ step.next ≤
          job.potential ⟨#v[19 / 20, 1 / 20], #v[1 / 5, 1 / 10], -3 / 20⟩ s -
            job.system.rho * (Vec.distanceSq step.w step.next.v +
              (Vec.total step.w - 1) ^ 2 + Vec.distanceSq step.next.v s.v) := by
  obtain ⟨job, hjob⟩ := exists_pairJob
  obtain ⟨step, hstep⟩ := job.exists_step_of_pos two_pos 1
  obtain ⟨s, hs, _⟩ := exists_state_of_step hstep
  have hstar := pairProgram_isSaddle hjob.objective_eq
  rw [← hjob.penalty_eq] at hstar
  exact ⟨job, hjob, hstar, s, step, hs, hstep,
    (hjob.accepted.potential_descends hstar hs hstep).2.1 one_pos⟩

end Job

end SparseWeights
