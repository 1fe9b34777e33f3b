import SparseWeights.Proofs.Admm.Agreement
import SparseWeights.Proofs.Admm.Certificate
import SparseWeights.Proofs.Admm.FixedPoint
import SparseWeights.Proofs.Admm.Gap

/-!
Runs that are long enough come to an end. Of a problem with a saddle point every
iteration but the first takes its own defect from the potential, and the
potential is never negative, so the defects cannot all stay above a positive
number. A small defect means small residuals and, as the multipliers stay within
the first potential, a small gap: such an iteration passes the test. A limit on
the iterations does not change them, so the same iteration ends every run with
room for it.
-/

namespace SparseWeights

variable {n : ℕ}

/-- What a sequence without negative members takes from one to the next does not
stay above a positive number. -/
theorem exists_lt_of_forall_add_le {value drop : ℕ → ℝ} (hvalue : ∀ i, 0 ≤ value i)
    (hfalls : ∀ i, value (i + 1) + drop i ≤ value i) {bound : ℝ} (hbound : 0 < bound) :
    ∃ i, drop i < bound := by
  by_contra hnone
  have hdrop : ∀ i, bound ≤ drop i := fun i => not_lt.mp fun h => hnone ⟨i, h⟩
  have hsum (i : ℕ) : value i + i * bound ≤ value 0 := by
    induction i with
    | zero => simp
    | succ i ih =>
        push_cast
        linarith [hfalls i, hdrop i]
  obtain ⟨i, hi⟩ := exists_nat_gt (value 0 / bound)
  rw [div_lt_iff₀ hbound] at hi
  linarith [hsum i, hvalue i]

/-- Below some radius a number and its multiple are within two tolerances. -/
private theorem exists_radius {factor infeas gap : ℝ} (hfactor : 0 ≤ factor)
    (hinfeas : 0 < infeas) (hgap : 0 < gap) :
    ∃ radius, 0 < radius ∧ ∀ x < radius, x ≤ 1 ∧ x < infeas ∧ factor * x < gap := by
  have hscale : 0 < factor + 1 := by
    linarith
  refine ⟨min 1 (min infeas (gap / (factor + 1))),
    lt_min one_pos (lt_min hinfeas (div_pos hgap hscale)), ?_⟩
  intro x hx
  obtain ⟨hone, hrest⟩ := lt_min_iff.mp hx
  obtain ⟨hbelow, hquotient⟩ := lt_min_iff.mp hrest
  refine ⟨hone.le, hbelow, ?_⟩
  rw [lt_div_iff₀ hscale] at hquotient
  rcases le_total 0 x with hpos | hneg
  · linarith
  · exact (mul_nonpos_of_nonneg_of_nonpos hfactor hneg).trans_lt hgap

/-- By how much an iteration misses being at rest: the residual of the split, the
miss of the sum and the move of `v`, all squared. -/
noncomputable def Step.defect (step : Step ℝ n) (s : State ℝ n) : ℝ :=
  Vec.distanceSq step.w step.next.v + (Vec.total step.w - 1) ^ 2 +
    Vec.distanceSq step.next.v s.v

section Defect

variable (step : Step ℝ n) (s : State ℝ n)

theorem Step.distanceSq_w_le_defect :
    Vec.distanceSq step.w step.next.v ≤ step.defect s := by
  have hmove := Vec.distanceSq_nonneg step.next.v s.v
  rw [defect]
  linarith [sq_nonneg (Vec.total step.w - 1)]

theorem Step.sq_total_le_defect : (Vec.total step.w - 1) ^ 2 ≤ step.defect s := by
  have hsplit := Vec.distanceSq_nonneg step.w step.next.v
  have hmove := Vec.distanceSq_nonneg step.next.v s.v
  rw [defect]
  linarith

theorem Step.distanceSq_v_le_defect :
    Vec.distanceSq step.next.v s.v ≤ step.defect s := by
  have hsplit := Vec.distanceSq_nonneg step.w step.next.v
  rw [defect]
  linarith [sq_nonneg (Vec.total step.w - 1)]

end Defect

namespace Job

variable {job : Job ℝ n} {star s : State ℝ n} {step : Step ℝ n}

/-- The multiplier of the sum stays as close as the potential says. -/
theorem abs_beta_le (hrho : 0 < job.system.rho) (star s : State ℝ n) :
    |s.beta| ≤ |star.beta| + Real.sqrt (job.system.rho * job.potential star s) := by
  have hsquare : (s.beta - star.beta) ^ 2 ≤ job.system.rho * job.potential star s := by
    have halpha := Vec.distanceSq_nonneg s.alpha star.alpha
    have hv := mul_nonneg (mul_self_nonneg job.system.rho)
      (Vec.distanceSq_nonneg s.v star.v)
    rw [potential, mul_add, mul_div_cancel₀ _ hrho.ne', ← mul_assoc]
    linarith
  have hdistance := Real.abs_le_sqrt hsquare
  have htriangle := abs_sub_abs_le_abs_sub s.beta star.beta
  linarith

/-- From the second iteration on the potential falls by the defect. -/
theorem Advances.potential_add_defect_le (hjob : job.Accepted)
    (hstar : job.program.IsSaddle job.penalty star) (hadvances : job.Advances s step)
    (hs : job.penalty.IsSubgradient s.v s.alpha) :
    job.potential star step.next + job.system.rho * step.defect s ≤
      job.potential star s := by
  have hdescent := hadvances.potential_le hjob hstar
  have hdistance := hadvances.distanceSq_add_le hjob.rho_pos hs
  have hscaled := mul_le_mul_of_nonneg_left hdistance hjob.rho_pos.le
  rw [Step.defect]
  linarith

theorem Advances.primalResidual_le_sqrt (hadvances : job.Advances s step) :
    step.record.primalResidual ≤ Real.sqrt (step.defect s) := by
  rw [hadvances.primalResidual_eq]
  apply max_le
  · rw [Vec.maxAbs_le_iff]
    refine ⟨Real.sqrt_nonneg _, ?_⟩
    intro i
    apply Real.abs_le_sqrt
    calc
      (Vec.sub step.w step.next.v).get i ^ 2 ≤ Vec.distanceSq step.w step.next.v := by
            rw [Vec.distanceSq_eq_sum, Vec.get_sub]
            exact Finset.single_le_sum
              (f := fun k => (step.w.get k - step.next.v.get k) ^ 2)
              (fun k _ => sq_nonneg _) (Finset.mem_univ i)
      _ ≤ step.defect s := step.distanceSq_w_le_defect s
  · exact Real.abs_le_sqrt (step.sq_total_le_defect s)

/-- Of a small defect the gap is at most a multiple of the root. -/
theorem Advances.gap_le_mul_sqrt (hjob : job.Accepted) (hadvances : job.Advances s step)
    {form size : ℝ} (hform : job.program.FormBound form)
    (hbeta : |step.next.beta| ≤ size) (hsmall : Real.sqrt (step.defect s) ≤ 1) :
    step.record.gap ≤ (form / 2 * job.system.rho ^ 2 +
      (2 * (job.penalty.factor 0 * n) + size)) * Real.sqrt (step.defect s) := by
  set root := Real.sqrt (step.defect s) with hroot
  have hsquare : 0 ≤ form / 2 * job.system.rho ^ 2 :=
    mul_nonneg (div_nonneg hform.nonneg zero_le_two) (sq_nonneg _)
  have hlinear : 0 ≤ 2 * (job.penalty.factor 0 * n) + |step.next.beta| :=
    add_nonneg (mul_nonneg zero_le_two
      (mul_nonneg (hjob.penalty.falls.nonneg 0) (Nat.cast_nonneg n))) (abs_nonneg _)
  have hmove : Vec.distanceSq step.next.v s.v ≤ root := by
    have hdefect : 0 ≤ step.defect s := (sq_nonneg _).trans (step.sq_total_le_defect s)
    calc
      Vec.distanceSq step.next.v s.v ≤ step.defect s := step.distanceSq_v_le_defect s
      _ = root * root := (Real.mul_self_sqrt hdefect).symm
      _ ≤ root := mul_le_of_le_one_right (Real.sqrt_nonneg _) hsmall
  calc
    step.record.gap ≤ form / 2 * job.system.rho ^ 2 * Vec.distanceSq step.next.v s.v +
        (2 * (job.penalty.factor 0 * n) + |step.next.beta|) *
          step.record.primalResidual := hadvances.gap_le hjob hform
    _ ≤ form / 2 * job.system.rho ^ 2 * root +
        (2 * (job.penalty.factor 0 * n) + |step.next.beta|) * root :=
          add_le_add (mul_le_mul_of_nonneg_left hmove hsquare)
            (mul_le_mul_of_nonneg_left hadvances.primalResidual_le_sqrt hlinear)
    _ ≤ form / 2 * job.system.rho ^ 2 * root +
        (2 * (job.penalty.factor 0 * n) + size) * root :=
          add_le_add_right (mul_le_mul_of_nonneg_right (add_le_add_right hbeta _)
            (Real.sqrt_nonneg _)) _
    _ = _ := by ring

/-- With a bound on the multiplier of the sum, an iteration passes the test if only
its defect is small enough. -/
theorem Accepted.exists_defect_accepts (hjob : job.Accepted) {size : ℝ}
    (hsize : 0 ≤ size) :
    ∃ bound, 0 < bound ∧ ∀ s step, job.Advances s step → |step.next.beta| ≤ size →
      step.defect s < bound → job.settings.accepts step.record = true := by
  obtain ⟨_, ⟨hinfeas, hgap⟩, _⟩ := Settings.accepted_iff.mp hjob.settings
  obtain ⟨form, hform⟩ := job.program.exists_formBound hjob.program.symmetric
  set factor := form / 2 * job.system.rho ^ 2 +
    (2 * (job.penalty.factor 0 * n) + size) with hfactor
  have hfactor_nonneg : 0 ≤ factor := by
    have hpenalty := mul_nonneg (hjob.penalty.falls.nonneg 0) (Nat.cast_nonneg (α := ℝ) n)
    have hsquare := mul_nonneg (div_nonneg hform.nonneg zero_le_two)
      (sq_nonneg job.system.rho)
    linarith
  obtain ⟨radius, hradius, hsmall⟩ := exists_radius hfactor_nonneg hinfeas hgap
  refine ⟨radius ^ 2, pow_pos hradius 2, ?_⟩
  intro s step hadvances hbeta hdefect
  obtain ⟨hone, hroot_infeas, hroot_gap⟩ :=
    hsmall _ ((Real.sqrt_lt' hradius).mpr hdefect)
  rw [Settings.accepts_iff]
  refine ⟨?_, hadvances.primalResidual_le_sqrt.trans_lt hroot_infeas, ?_⟩
  · exact (hadvances.gap_le_mul_sqrt hjob hform hbeta hone).trans_lt hroot_gap
  · rw [hadvances.dualResidual_eq_zero hjob]
    exact hinfeas

/-- Of a problem with a saddle point some iteration passes the test. -/
theorem Accepted.exists_accepts (hjob : job.Accepted)
    (hstar : job.program.IsSaddle job.penalty star) :
    ∃ i step, job.stepAfter i = .ok step ∧ job.settings.accepts step.record = true := by
  have hrho := hjob.rho_pos
  choose step hstep using job.exists_step_of_pos hstar.dimension_pos
  -- Counting starts behind the first iteration, whose old multiplier is zero and need
  -- not be a subgradient at the start.
  have hstate (i : ℕ) : job.stateAfter (i + 1) = .ok (step i).next :=
    stateAfter_succ_of_step (hstep i)
  have hadvances (i : ℕ) : job.Advances (step i).next (step (i + 1)) :=
    hjob.advances_of_step (hstate i) (hstep (i + 1))
  have hfalls (i : ℕ) : job.potential star (step (i + 1)).next +
      job.system.rho * (step (i + 1)).defect (step i).next ≤
        job.potential star (step i).next :=
    (hadvances i).potential_add_defect_le hjob hstar
      (hjob.subgradient_of_state (Nat.succ_pos i) (hstate i))
  have hpotential : Antitone fun i => job.potential star (step i).next := by
    apply antitone_nat_of_succ_le
    intro i
    have hdefect : 0 ≤ (step (i + 1)).defect (step i).next :=
      (sq_nonneg _).trans (Step.sq_total_le_defect _ _)
    linarith [hfalls i, mul_nonneg hrho.le hdefect]
  set size := |star.beta| +
    Real.sqrt (job.system.rho * job.potential star (step 0).next) with hsize
  have hbeta (i : ℕ) : |(step i).next.beta| ≤ size := by
    refine (abs_beta_le hrho star _).trans (add_le_add_right (Real.sqrt_le_sqrt ?_) _)
    exact mul_le_mul_of_nonneg_left (hpotential (Nat.zero_le i)) hrho.le
  obtain ⟨bound, hbound, haccepts⟩ :=
    hjob.exists_defect_accepts ((abs_nonneg _).trans (hbeta 0))
  obtain ⟨i, hi⟩ := exists_lt_of_forall_add_le
    (fun i => potential_nonneg hrho star (step i).next) hfalls (mul_pos hrho hbound)
  exact ⟨i + 1, step (i + 1), hstep (i + 1), haccepts _ _ (hadvances i) (hbeta (i + 1))
    (lt_of_mul_lt_mul_left hi hrho.le)⟩

/-- A limit that cannot be counted to is found out before the first iteration. -/
theorem result_of_countLimit {job : Job ℝ n}
    (hcount : ¬ job.settings.maxIter < countLimit) (elapsed : ℕ → ℝ) :
    job.result elapsed = .error .tooLarge := by
  rw [result, job.trace_of_countLimit elapsed hcount]
  rfl

/-- The job with another limit on its iterations. -/
def withLimit (job : Job ℝ n) (limit : ℕ) : Job ℝ n :=
  { job with settings := { job.settings with maxIter := limit } }

/-- The limit of a job is not read by its iterations, nor by the rule to stop. -/
theorem loop_withLimit (job : Job ℝ n) (limit : ℕ) (elapsed : ℕ → ℝ) (room : ℕ) :
    (job.withLimit limit).loop elapsed room = job.loop elapsed room := by
  rw [loop, loop]
  apply iterate_congr
  · exact fun _ _ => rfl
  · exact fun _ _ => rfl

/-- Without a time limit the first iteration that passes the test ends every loop
with room for it, whatever the clock says. -/
theorem exists_loop_eq (job : Job ℝ n) (hn : 0 < n)
    (htime : job.settings.timeLimit = none)
    (haccepts : ∃ i step, job.stepAfter i = .ok step ∧
      job.settings.accepts step.record = true) :
    ∃ (records : History ℕ ℝ) (last : State ℝ n), 0 < records.length ∧
      ∀ limit, records.length ≤ limit → ∀ elapsed,
        job.loop elapsed limit = ⟨records, .ok (.accepted, last)⟩ := by
  choose step hstep using job.exists_step_of_pos hn
  have hsome : ∃ i, job.settings.accepts (step i).record = true := by
    obtain ⟨i, final, hfinal, hi⟩ := haccepts
    obtain rfl := Except.ok.inj ((hstep i).symm.trans hfinal)
    exact ⟨i, hi⟩
  have hstop (i : ℕ) (now : ℝ) : job.settings.stop? (step i).record now =
      if job.settings.accepts (step i).record then some .accepted else none := by
    simp [Settings.stop?, Settings.timedOut, htime]
  set first := Nat.find hsome
  set steps := (List.range first).map step with hsteps
  have hlength : steps.length = first := by
    simp [hsteps]
  refine ⟨(steps ++ [step first]).map (·.record), (step first).next, by simp, ?_⟩
  intro limit hlimit elapsed
  have hpasses : job.Passes elapsed steps := by
    constructor
    · intro i hi
      simpa [hsteps] using hstep i
    · intro i hi
      have hnot := Nat.find_min hsome (hlength ▸ hi)
      simpa [hsteps, hstop] using hnot
  apply loop_of_stop hpasses
  · simpa [Nat.succ_le_iff] using hlimit
  · rw [hlength]
    exact hstep first
  · rw [hstop, if_pos (Nat.find_spec hsome)]

end Job

/-- Convergence. With a saddle point and without a time limit there is a number of
iterations within which the test is passed, and every limit from there on gives the
same optimal answer, as far as it can be counted to. The loop itself gives it for
the limits beyond as well, but there the run fails in front of its first
iteration. -/
theorem run_converges {program : Program ℝ n} (hprogram : program.Accepted)
    {penalty : Penalty ℝ n} (hpenalty : penalty.Accepted) {settings : Settings ℝ}
    (hsettings : settings.Accepted) (htime : settings.timeLimit = none)
    {star : State ℝ n} (hstar : program.IsSaddle penalty star) (start : Vec ℝ n) :
    ∃ (enough : ℕ) (result : Result ℝ n), 0 < enough ∧ result.status = .optimal ∧
      result.iterations ≤ enough ∧
      ∀ limit, enough ≤ limit → { settings with maxIter := limit }.Accepted ∧
        ∃ job, Job.ofProgram? program penalty { settings with maxIter := limit } start =
            some job ∧
          ∀ elapsed,
            (job.loop elapsed limit).result job.penalty job.system.rho = .ok result ∧
            job.result elapsed =
              if limit < Job.countLimit then .ok result else .error .tooLarge := by
  obtain ⟨system, hjob⟩ := Job.exists_accepted hprogram hpenalty hsettings start
  set job : Job ℝ n := ⟨program, penalty, settings, system, start⟩ with hjobdef
  obtain ⟨records, last, hpositive, hloop⟩ :=
    job.exists_loop_eq hstar.dimension_pos htime (hjob.exists_accepts hstar)
  obtain ⟨result, hresult, hstatus, hiterations⟩ : ∃ result : Result ℝ n,
      (Trace.mk records (.ok (.accepted, last))).result penalty system.rho = .ok result ∧
        result.status = .optimal ∧ result.iterations = records.length :=
    ⟨_, rfl, rfl, rfl⟩
  refine ⟨records.length, result, hpositive, hstatus, hiterations.le, ?_⟩
  intro limit hlimit
  have hsystem : WeightSystem.ofMatrix? program.quadratic
      ({ settings with maxIter := limit }.rhoFor program) = some system :=
    hjob.ofMatrix?_system
  refine ⟨hsettings.withLimit (hpositive.trans_le hlimit), job.withLimit limit,
    Job.ofProgram?_of_system hsystem penalty start, ?_⟩
  intro elapsed
  have hsame : ((job.withLimit limit).loop elapsed limit).result penalty system.rho =
      .ok result := by
    rw [Job.loop_withLimit, hloop limit hlimit, hresult]
  refine ⟨hsame, ?_⟩
  split
  · rename_i hcount
    rw [Job.result, Job.trace_of_count hcount]
    exact hsame
  · rename_i hcount
    exact Job.result_of_countLimit hcount elapsed

/-- On two weights the run that starts from the data comes to an end. -/
theorem run_converges_pair :
    ∃ program : Program ℝ 2, program.Accepted ∧ pairPenalty.Accepted ∧
      pairSettings.Accepted ∧ pairSettings.timeLimit = none ∧
      program.IsSaddle pairPenalty
        ⟨#v[19 / 20, 1 / 20], #v[1 / 5, 1 / 10], -3 / 20⟩ ∧
      ∃ (enough : ℕ) (result : Result ℝ 2), result.status = .optimal ∧
        result.iterations ≤ enough ∧ ∀ limit, enough ≤ limit → ∃ job,
          Job.ofProgram? program pairPenalty { pairSettings with maxIter := limit }
            #v[1, 0] = some job ∧
          (limit < Job.countLimit → job.result 0 = .ok result) := by
  obtain ⟨program, hprogram, hobjective⟩ := exists_pairProgram
  have hpenalty := pairPenalty_falls.accepted two_pos
  have hstar := Job.pairProgram_isSaddle hobjective
  obtain ⟨enough, result, _, hstatus, hiterations, hruns⟩ :=
    run_converges hprogram hpenalty pairSettings_accepted rfl hstar #v[1, 0]
  refine ⟨program, hprogram, hpenalty, pairSettings_accepted, rfl, hstar, enough, result,
    hstatus, hiterations, ?_⟩
  intro limit hlimit
  obtain ⟨_, job, hjob, hresult⟩ := hruns limit hlimit
  refine ⟨job, hjob, ?_⟩
  intro hcount
  rw [(hresult 0).2, if_pos hcount]

/-- But no number of iterations is enough for all limits there are, although each
of them is accepted. -/
theorem exists_limit_tooLarge_pair :
    ∃ program : Program ℝ 2, program.Accepted ∧ pairPenalty.Accepted ∧
      program.IsSaddle pairPenalty
        ⟨#v[19 / 20, 1 / 20], #v[1 / 5, 1 / 10], -3 / 20⟩ ∧
      ∀ enough : ℕ, ∃ limit, enough ≤ limit ∧
        { pairSettings with maxIter := limit }.Accepted ∧ ∃ job,
          Job.ofProgram? program pairPenalty { pairSettings with maxIter := limit }
            #v[1, 0] = some job ∧
          ∀ elapsed, job.result elapsed = .error .tooLarge := by
  obtain ⟨program, hprogram, hobjective⟩ := exists_pairProgram
  have hpenalty := pairPenalty_falls.accepted two_pos
  refine ⟨program, hprogram, hpenalty, Job.pairProgram_isSaddle hobjective, ?_⟩
  intro enough
  have hcount : Job.countLimit ≤ max enough Job.countLimit := le_max_right _ _
  have hpositive : 0 < Job.countLimit := by
    decide
  have hsettings := pairSettings_accepted.withLimit (hpositive.trans_le hcount)
  obtain ⟨system, hjob⟩ := Job.exists_accepted hprogram hpenalty hsettings #v[1, 0]
  exact ⟨_, le_max_left _ _, hsettings, _, hjob.prepared,
    Job.result_of_countLimit (not_lt.mpr hcount)⟩

end SparseWeights
