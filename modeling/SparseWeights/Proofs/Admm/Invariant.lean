import SparseWeights.Proofs.Admm.Iteration
import SparseWeights.Proofs.Admm.Trajectory
import SparseWeights.Proofs.Duality

/-!
What holds after every iteration of an accepted job, however many there are and
wherever they started. The multiplier of the split is in the dual ball from the
first iteration on, although no single update keeps it there: it is remade each
time from what the proximal map takes off.
-/

namespace SparseWeights

variable {n : ℕ}

/-- Over the reals a job with a weight has all its iterations. -/
theorem Job.exists_step_of_pos (job : Job ℝ n) (hn : 0 < n) (i : ℕ) :
    ∃ step, job.stepAfter i = .ok step := by
  have hadvance := State.exists_advance hn job.program job.penalty job.system
  have hstate : ∃ s, job.stateAfter i = .ok s := by
    induction i with
    | zero => exact ⟨_, rfl⟩
    | succ i ih =>
        obtain ⟨s, hs⟩ := ih
        obtain ⟨step, hstep⟩ := hadvance (i + 1) s
        exact ⟨step.next, stateAfter_succ_of_step ((stepAfter_of_state hs).trans hstep)⟩
  obtain ⟨s, hs⟩ := hstate
  rw [stepAfter_of_state hs]
  exact hadvance (i + 1) s

theorem Job.InStep.exists_steps {states : State ℝ n → State ℝ n → Prop}
    {steps : Step ℝ n → Step ℝ n → Prop} {job job' : Job ℝ n}
    (hinStep : InStep states steps job job') (hn : 0 < n) (i : ℕ) :
    ∃ step step', job.stepAfter i = .ok step ∧ job'.stepAfter i = .ok step' ∧
      steps step step' := by
  obtain ⟨step, hstep⟩ := job.exists_step_of_pos hn i
  obtain ⟨step', hstep', hsteps⟩ := hinStep.exists_step hstep
  exact ⟨step, step', hstep, hstep', hsteps⟩

/-- So it comes to an answer, if its limit can be counted to. -/
theorem Job.exists_result_of_pos (job : Job ℝ n) (hn : 0 < n)
    (hcount : job.settings.maxIter < countLimit) (elapsed : ℕ → ℝ) :
    ∃ result, job.result elapsed = .ok result := by
  have houtcome := job.trace_outcome elapsed hcount
  rw [Job.result]
  generalize job.trace elapsed = trace at houtcome
  cases houtcome with
  | exhausted steps last => exact ⟨_, rfl⟩
  | stopped steps final stop => exact ⟨_, rfl⟩
  | failed steps cause hpasses hlength hcause =>
      obtain ⟨step, hstep⟩ := job.exists_step_of_pos hn steps.length
      rw [hstep] at hcause
      cases hcause

namespace Job.Accepted

variable {job : Job ℝ n} (hjob : job.Accepted)

include hjob

theorem advances_of_step {i : ℕ} {s : State ℝ n} {step : Step ℝ n}
    (hs : job.stateAfter i = .ok s) (hstep : job.stepAfter i = .ok step) :
    job.Advances s step := by
  apply (hjob.advances s (i + 1)).1
  rw [← stepAfter_of_state hs]
  exact hstep

/-- After the first iteration the multiplier of the split is a subgradient. -/
theorem subgradient_of_state {i : ℕ} (hi : 0 < i) {s : State ℝ n}
    (hs : job.stateAfter i = .ok s) : job.penalty.IsSubgradient s.v s.alpha := by
  obtain ⟨j, rfl⟩ := Nat.exists_eq_add_one.mpr hi
  cases hstep : job.stepAfter j with
  | error cause =>
      rw [stateAfter_succ, hstep] at hs
      cases hs
  | ok step =>
      obtain ⟨previous, hprevious, _⟩ := exists_state_of_step hstep
      have hadvances := hjob.advances_of_step hprevious hstep
      rw [stateAfter_succ_of_step hstep] at hs
      cases hs
      exact hadvances.subgradient

/-- Every record of a run is that of an iteration that establishes the
equations. -/
theorem advances_of_record {elapsed : ℕ → ℝ} {r : Record ℕ ℝ}
    (hr : r ∈ (job.trace elapsed).records) :
    ∃ s step, job.Advances s step ∧ step.record = r := by
  obtain ⟨i, step, hstep, hrecord⟩ := exists_step_of_record hr
  obtain ⟨s, hs, _⟩ := exists_state_of_step hstep
  exact ⟨s, step, hjob.advances_of_step hs hstep, hrecord⟩

/-- The invariant of the loop. After every iteration the new weights are
stationary up to the move of `v`, and the new multiplier passes the dual test and
is a subgradient of the penalty at the new `v`; the recorded infeasibility of the
dual is zero throughout. These are the iterations that every run goes along. -/
theorem loop_invariant :
    (∀ i s step, job.stateAfter i = .ok s → job.stepAfter i = .ok step →
      (∀ k, (Mat.mulVec job.program.quadratic step.w).get k -
          job.program.linear.get k + step.next.alpha.get k + step.next.beta =
        job.system.rho * (s.v.get k - step.next.v.get k)) ∧
      job.penalty.dualInfeasibility step.next.alpha = 0 ∧
      Vec.dot step.next.alpha step.next.v = job.penalty.value step.next.v ∧
      ∀ u, job.penalty.value step.next.v +
        Vec.dot step.next.alpha (Vec.sub u step.next.v) ≤ job.penalty.value u) ∧
    (∀ elapsed, ∀ r ∈ (job.trace elapsed).records, r.dualResidual = 0) ∧
    (0 < n → ∀ i, ∃ step, job.stepAfter i = .ok step) ∧
    ∀ elapsed, job.RunsAlong elapsed := by
  refine ⟨?_, ?_, job.exists_step_of_pos, job.runsAlong⟩
  · intro i s step hs hstep
    have hadvances := hjob.advances_of_step hs hstep
    obtain ⟨hfeasible, htight⟩ :=
      (Penalty.isSubgradient_iff hjob.penalty.falls).mp hadvances.subgradient
    exact ⟨hadvances.stationary, hfeasible, htight,
      hadvances.subgradient.value_add_dot_le⟩
  · intro elapsed r hr
    obtain ⟨s, step, hadvances, rfl⟩ := hjob.advances_of_record hr
    exact hadvances.dualResidual_eq_zero hjob

end Job.Accepted

section Pair

noncomputable def pairSettings : Settings ℝ where
  maxIter := 10
  tolInfeas := 1 / 2
  tolRelGap := 1 / 20
  rho := some 1
  verbose := .bool false
  progress := .bool false
  timeLimit := none

theorem pairSettings_accepted : pairSettings.Accepted := by
  simp [Settings.accepted_iff, pairSettings]

theorem pairSettings_maxIter_lt : pairSettings.maxIter < Job.countLimit := by
  decide

/-- The job on two weights that starts from those that fit the data. -/
structure Job.IsPair (job : Job ℝ 2) : Prop where
  accepted : job.Accepted
  objective_eq : job.program.objective = .leastSquares pairDesign pairResponse
  penalty_eq : job.penalty = pairPenalty
  settings_eq : job.settings = pairSettings
  start_eq : job.start = #v[1, 0]

theorem exists_pairJob : ∃ job : Job ℝ 2, job.IsPair := by
  obtain ⟨program, hprogram, hobjective⟩ := exists_pairProgram
  obtain ⟨system, hjob⟩ := Job.exists_accepted hprogram
    (pairPenalty_falls.accepted two_pos) pairSettings_accepted #v[1, 0]
  exact ⟨_, hjob, hobjective, rfl, rfl, rfl⟩

theorem pairPenalty_isSubgradient :
    pairPenalty.IsSubgradient #v[4 / 5, 0] #v[1 / 5, 0] := by
  constructor
  · exact pairPenalty_inBall le_rfl (by norm_num) le_rfl (by norm_num)
  · rw [pairPenalty_value le_rfl (by norm_num), pair_dot]
    norm_num

theorem Job.IsPair.first {job : Job ℝ 2} (hjob : job.IsPair) {step : Step ℝ 2}
    (hstep : job.stepAfter 0 = .ok step) :
    step.w = #v[1, 0] ∧ step.next.v = #v[4 / 5, 0] ∧
      step.next.alpha = #v[1 / 5, 0] ∧ step.next.beta = 0 := by
  have hrho : job.system.rho = 1 := by
    rw [hjob.accepted.system_eq.2, Settings.rhoFor, hjob.settings_eq]
    rfl
  obtain ⟨hquadratic, hlinear, _⟩ := pairProgram_spec hjob.objective_eq
  have hadvances := hjob.accepted.advances_of_step rfl hstep
  have hstationary := hadvances.stationary
  have halpha := hadvances.alpha_eq
  have hbeta := hadvances.beta_eq
  simp only [Mat.mulVec_eq, hquadratic, Matrix.one_mulVec, hlinear, hrho,
    hjob.start_eq, State.start, Vec.get_replicate, Vec.total_eq_sum, Fin.sum_univ_two, zero_add,
    one_mul] at hstationary halpha hbeta
  have hfirst : 3 * step.w.get 0 + step.w.get 1 = 3 := by
    have hzero := hstationary 0
    rw [halpha 0, hbeta] at hzero
    change _ - 1 + _ + _ = 1 - _ at hzero
    linarith
  have hsecond : step.w.get 0 + 3 * step.w.get 1 = 1 := by
    have hone := hstationary 1
    rw [halpha 1, hbeta] at hone
    change _ - 0 + _ + _ = 0 - _ at hone
    linarith
  have hw : step.w = #v[1, 0] := by
    apply eq_pair
    · linarith
    · linarith
  rw [hw] at halpha hbeta
  have hv : step.next.v = #v[4 / 5, 0] := by
    have hsubgradient := hadvances.subgradient
    rw [hjob.penalty_eq] at hsubgradient
    apply hsubgradient.weights_eq pairPenalty_isSubgradient one_pos
    intro i
    rw [halpha i]
    fin_cases i
    · change _ + 1 * (1 - _) = (4 / 5 + 1 * (1 / 5) : ℝ)
      ring
    · change _ + 1 * (0 - _) = (0 + 1 * 0 : ℝ)
      ring
  rw [hv] at halpha
  refine ⟨hw, hv, ?_, ?_⟩
  · apply eq_pair
    · rw [halpha 0]
      change (1 - 4 / 5 : ℝ) = 1 / 5
      norm_num
    · rw [halpha 1]
      change (0 - 0 : ℝ) = 0
      norm_num
  · rw [hbeta]
    change (1 + 0 - 1 : ℝ) = 0
    norm_num

/-- The invariant after that iteration, which clamps the second weight. -/
theorem loop_invariant_pair :
    ∃ job : Job ℝ 2, job.IsPair ∧
      ∃ step, job.stepAfter 0 = .ok step ∧ step.next.v = #v[4 / 5, 0] ∧
        job.penalty.dualInfeasibility step.next.alpha = 0 ∧
        Vec.dot step.next.alpha step.next.v = job.penalty.value step.next.v := by
  obtain ⟨job, hjob⟩ := exists_pairJob
  obtain ⟨hinvariant, _, hexists, _⟩ := hjob.accepted.loop_invariant
  obtain ⟨step, hstep⟩ := hexists two_pos 0
  obtain ⟨_, hball, htight, _⟩ := hinvariant 0 _ step rfl hstep
  obtain ⟨_, hv, _⟩ := hjob.first hstep
  exact ⟨job, hjob, step, hstep, hv, hball, htight⟩

end Pair

end SparseWeights
