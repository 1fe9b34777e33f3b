import SparseWeights.Proofs.Admm.Ending
import SparseWeights.Proofs.Admm.Invariant
import SparseWeights.Proofs.Duality

/-!
What the records of a run certify. The dual objective of every record bounds the
optimum from below, since the multiplier it is taken at is in the dual ball. When
the last record passes the test, its objective is thus within the tolerance of
the optimum, and the weights that are returned nearly sum to one.
-/

namespace SparseWeights

variable {n : ℕ}

/-- The sum of the entries moves by at most `n` times the largest difference. -/
theorem Vec.abs_total_sub_le (u v : Vec ℝ n) {bound : ℝ}
    (h : Vec.maxAbs (Vec.sub u v) ≤ bound) :
    |Vec.total u - Vec.total v| ≤ n * bound := by
  calc
    |Vec.total u - Vec.total v| = |∑ i, (Vec.sub u v).get i| := by
          simp only [Vec.total_eq_sum, Vec.get_sub, Finset.sum_sub_distrib]
    _ ≤ Vec.norm1 (Vec.sub u v) := by
          rw [Vec.norm1_eq_sum]
          exact Finset.abs_sum_le_sum_abs _ _
    _ ≤ n * bound := Vec.norm1_le_mul h

theorem Settings.accepts_iff (settings : Settings ℝ) (r : Record ℕ ℝ) :
    settings.accepts r = true ↔
      r.gap < settings.tolRelGap ∧ r.primalResidual < settings.tolInfeas ∧
        r.dualResidual < settings.tolInfeas := by
  simp [Settings.accepts]

namespace Job

variable {job : Job ℝ n}

/-- The dual objective that an iteration records is a lower bound. -/
theorem Advances.dual_le (hjob : job.Accepted) {s : State ℝ n} {step : Step ℝ n}
    (hadvances : job.Advances s step) {w : Vec ℝ n} (hw : Vec.total w = 1) :
    step.record.dual ≤ job.program.objective.value w + job.penalty.value w :=
  Program.dualObjective?_le_of_inBall hjob.program.symmetric
    hadvances.subgradient.ball hadvances.dual_eq hw

/-- A small gap puts the recorded objective close above the recorded bound. -/
theorem Advances.primal_le_dual_add {s : State ℝ n} {step : Step ℝ n}
    (hadvances : job.Advances s step) {tolerance : ℝ}
    (hgap : step.record.gap < tolerance) :
    step.record.primal ≤ step.record.dual + tolerance * max 1 step.record.primal := by
  have hscale : 0 < max 1 step.record.primal := lt_max_of_lt_left one_pos
  rw [hadvances.gap_eq, div_lt_iff₀ hscale] at hgap
  have hdifference := le_abs_self (step.record.primal - step.record.dual)
  linarith

/-- A small residual bounds by how much the sum of the new `v` misses one. -/
theorem Advances.abs_total_sub_one_lt {s : State ℝ n} {step : Step ℝ n}
    (hadvances : job.Advances s step) {tolerance : ℝ}
    (hresidual : step.record.primalResidual < tolerance) :
    |Vec.total step.next.v - 1| < (n + 1) * tolerance := by
  rw [hadvances.primalResidual_eq, max_lt_iff] at hresidual
  obtain ⟨hsplit, hsum⟩ := hresidual
  have hmove := Vec.abs_total_sub_le step.w step.next.v hsplit.le
  calc
    |Vec.total step.next.v - 1| =
        |(Vec.total step.w - 1) - (Vec.total step.w - Vec.total step.next.v)| := by
          congr 1
          ring
    _ ≤ |Vec.total step.w - 1| + |Vec.total step.w - Vec.total step.next.v| :=
          abs_sub _ _
    _ < (n + 1) * tolerance := by linarith

/-- The certificate of a run: every recorded dual objective is a lower bound on
the objective of all weights that sum to one, and if the run ends well, its
objective exceeds theirs by no more than the tolerance on the gap, while the sum
of the returned weights misses one by less than `n + 1` times the tolerance on
the residuals. -/
theorem Accepted.run_certificate (hjob : job.Accepted) (elapsed : ℕ → ℝ) :
    (∀ r ∈ (job.trace elapsed).records, ∀ w : Vec ℝ n, Vec.total w = 1 →
      r.dual ≤ job.program.objective.value w + job.penalty.value w) ∧
    ∀ result, job.result elapsed = .ok result → result.status = .optimal →
      (∀ w : Vec ℝ n, Vec.total w = 1 →
        result.objective ≤ job.program.objective.value w + job.penalty.value w +
          job.settings.tolRelGap * max 1 result.objective) ∧
      |Vec.total result.w - 1| < (n + 1) * job.settings.tolInfeas := by
  constructor
  · intro r hr w hw
    obtain ⟨s, step, hadvances, rfl⟩ := hjob.advances_of_record hr
    exact hadvances.dual_le hjob hw
  · intro result hresult hstatus
    obtain ⟨step, hstep, haccepts, hweights, hobjective⟩ :=
      exists_step_of_optimal hresult hstatus
    obtain ⟨s, hs, _⟩ := exists_state_of_step hstep
    have hadvances := hjob.advances_of_step hs hstep
    obtain ⟨hgap, hresidual, _⟩ := (job.settings.accepts_iff step.record).mp haccepts
    rw [hweights, hobjective]
    refine ⟨?_, hadvances.abs_total_sub_one_lt hresidual⟩
    intro w hw
    have hbound := hadvances.dual_le hjob hw
    have hclose := hadvances.primal_le_dual_add hgap
    linarith

namespace IsPair

variable {job : Job ℝ 2} (hjob : job.IsPair)

include hjob

theorem first_record {step : Step ℝ 2} (hstep : job.stepAfter 0 = .ok step) :
    step.record.primal = 1 / 5 ∧ step.record.dual = 9 / 50 := by
  have hadvances := hjob.accepted.advances_of_step rfl hstep
  obtain ⟨hw, hv, halpha, hbeta⟩ := hjob.first hstep
  obtain ⟨hquadratic, hlinear, hvalue⟩ := pairProgram_spec hjob.objective_eq
  constructor
  · rw [hadvances.primal_eq, hw, hvalue, hjob.penalty_eq,
      pairPenalty_value le_rfl zero_le_one]
    norm_num
  · obtain ⟨x, hx, hdual⟩ := job.program.exists_dualObjective?_eq
      hjob.accepted.program.symmetric step.next.alpha step.next.beta
    rw [hquadratic, Matrix.one_mulVec] at hx
    have hx : x = #v[4 / 5, 0] := by
      apply eq_pair
      · rw [hx, Program.dualPoint_get, hlinear, halpha, hbeta]
        change (1 - 1 / 5 - 0 : ℝ) = 4 / 5
        norm_num
      · rw [hx, Program.dualPoint_get, hlinear, halpha, hbeta]
        change (0 - 0 - 0 : ℝ) = 0
        norm_num
    rw [Option.some.inj (hadvances.dual_eq.symm.trans hdual), Program.lagrangian, hx,
      hvalue, halpha, hbeta, pair_dot, pair_total]
    norm_num

theorem first_accepts {step : Step ℝ 2} (hstep : job.stepAfter 0 = .ok step) :
    job.settings.accepts step.record = true := by
  have hadvances := hjob.accepted.advances_of_step rfl hstep
  obtain ⟨hw, hv, _⟩ := hjob.first hstep
  obtain ⟨hprimal, hdual⟩ := hjob.first_record hstep
  rw [Settings.accepts_iff, hjob.settings_eq]
  refine ⟨?_, ?_, ?_⟩
  · change step.record.gap < 1 / 20
    rw [hadvances.gap_eq, hprimal, hdual]
    norm_num
  · have hsplit : Vec.sub step.w step.next.v = #v[1 / 5, 0] := by
      rw [hw, hv]
      apply eq_pair
      · rw [Vec.get_sub]
        change (1 - 4 / 5 : ℝ) = 1 / 5
        norm_num
      · rw [Vec.get_sub]
        change (0 - 0 : ℝ) = 0
        norm_num
    have hlargest : Vec.maxAbs (#v[1 / 5, 0] : Vec ℝ 2) ≤ 1 / 5 := by
      rw [Vec.maxAbs_le_iff, Fin.forall_fin_two]
      refine ⟨by norm_num, ?_, ?_⟩
      · change |(1 / 5 : ℝ)| ≤ 1 / 5
        norm_num
      · change |(0 : ℝ)| ≤ 1 / 5
        norm_num
    change step.record.primalResidual < 1 / 2
    rw [hadvances.primalResidual_eq, hsplit, hw, pair_total, max_lt_iff]
    exact ⟨by linarith, by norm_num⟩
  · change step.record.dualResidual < 1 / 2
    rw [hadvances.dualResidual_eq_zero hjob.accepted]
    norm_num

theorem maxIter_eq : job.settings.maxIter = 10 := by
  rw [hjob.settings_eq]
  rfl

theorem maxIter_lt : job.settings.maxIter < countLimit := by
  rw [hjob.settings_eq]
  exact pairSettings_maxIter_lt

/-- The run on two weights stops after its first iteration. -/
theorem endsWith (elapsed : ℕ → ℝ) : ∃ final, job.EndsWith elapsed [] final .accepted := by
  obtain ⟨final, hfinal⟩ := job.exists_step_of_pos two_pos 0
  have hstop : job.settings.stop? final.record (elapsed 1) = some .accepted := by
    rw [Settings.stop?, if_pos (hjob.first_accepts hfinal)]
  exact ⟨final, .of_stop (.nil job elapsed) (by simp [hjob.maxIter_eq]) hfinal hstop⟩

theorem exists_result (elapsed : ℕ → ℝ) :
    ∃ result, job.result elapsed = .ok result ∧ result.status = .optimal ∧
      result.w = #v[4 / 5, 0] ∧ result.objective = 1 / 5 := by
  obtain ⟨final, hends⟩ := hjob.endsWith elapsed
  obtain ⟨hiter, _⟩ := Settings.accepted_iff.mp hjob.accepted.settings
  exact ⟨_, (result_eq_ok_iff hiter).mpr ⟨hjob.maxIter_lt, [], final, .accepted, hends, rfl⟩,
    rfl, (hjob.first hends.step).2.1, (hjob.first_record hends.step).1⟩

end IsPair

/-- The certificate of that run: no weights come to less than three quarters of
its objective. -/
theorem run_certificate_pair :
    ∃ job : Job ℝ 2, job.IsPair ∧ ∃ result, job.result 0 = .ok result ∧
      result.status = .optimal ∧ result.objective = 1 / 5 ∧
      (∀ w : Vec ℝ 2, Vec.total w = 1 →
        3 / 20 ≤ job.program.objective.value w + job.penalty.value w) ∧
      |Vec.total result.w - 1| < 3 / 2 := by
  obtain ⟨job, hjob⟩ := exists_pairJob
  obtain ⟨result, hresult, hstatus, _, hvalue⟩ := hjob.exists_result 0
  obtain ⟨hnear, hsum⟩ := (hjob.accepted.run_certificate 0).2 result hresult hstatus
  refine ⟨job, hjob, result, hresult, hstatus, hvalue, ?_, ?_⟩
  · intro w hw
    have hbound := hnear w hw
    rw [hvalue, hjob.settings_eq, pairSettings] at hbound
    norm_num at hbound
    linarith
  · rw [hjob.settings_eq, pairSettings] at hsum
    norm_num at hsum
    exact hsum

end Job

end SparseWeights
