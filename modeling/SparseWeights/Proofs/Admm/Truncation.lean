import SparseWeights.Proofs.Admm.Certificate
import SparseWeights.Proofs.Admm.Ending
import SparseWeights.Proofs.Comparison

/-!
Runs that are cut off at different places. The trajectory of a job does not read
its limits and tolerances, so what one run records another one records as well, as
far as it gets. A stricter run gets at least as far. Stopping at an iteration for
whatever reason is the same as having no more than that many iterations.
-/

namespace SparseWeights

variable {α : Type} [Scalar α] {n : Nat}

/-- The settings that stop after so many iterations and read no clock. -/
def Settings.cutAt (settings : Settings α) (limit : Nat) : Settings α :=
  { settings with maxIter := limit, timeLimit := none }

theorem Settings.Valid.cutAt {settings : Settings α} (hvalid : settings.Valid)
    {limit : Nat} (hlimit : 0 < limit) : (settings.cutAt limit).Valid := by
  obtain ⟨_, htolerances, hrho, _⟩ := Settings.valid_iff.mp hvalid
  exact Settings.valid_iff.mpr ⟨hlimit, htolerances, hrho, rfl⟩

namespace Job

theorem stateAfter_settings (job : Job α n) (settings : Settings α) (i : Nat) :
    { job with settings }.stateAfter i = job.stateAfter i := by
  induction i with
  | zero => rfl
  | succ i ih => rw [stateAfter, stateAfter, ih]

/-- No iteration reads the settings. -/
theorem stepAfter_settings (job : Job α n) (settings : Settings α) (i : Nat) :
    { job with settings }.stepAfter i = job.stepAfter i := by
  rw [stepAfter, stepAfter, stateAfter_settings]

/-- The steps are the first ones of a job. -/
def Follows (job : Job α n) (steps : List (Step α n)) : Prop :=
  ∀ i (h : i < steps.length), job.stepAfter i = .ok steps[i]

theorem follows_settings {job : Job α n} {settings : Settings α}
    {steps : List (Step α n)} (hsteps : { job with settings }.Follows steps) :
    job.Follows steps := by
  intro i hi
  exact (stepAfter_settings job settings i).symm.trans (hsteps i hi)

/-- Settings with the same step size make the same job, apart from themselves. -/
theorem ofProgram?_settings {program : Program α n} {penalty : Penalty α n}
    {settings settings' : Settings α} {start : Vec α n} {job : Job α n}
    (hjob : ofProgram? program penalty settings start = some job)
    (hrho : settings.rho = settings'.rho) :
    ofProgram? program penalty settings' start = some { job with settings := settings' } := by
  obtain ⟨system, hsystem, rfl⟩ := ofProgram?_eq_some hjob
  rw [Settings.rhoFor, hrho] at hsystem
  rw [ofProgram?, Settings.rhoFor, hsystem]
  rfl

theorem Follows.prefix_of_length_le {job : Job α n} {steps steps' : List (Step α n)}
    (hsteps : job.Follows steps) (hsteps' : job.Follows steps')
    (hlength : steps.length ≤ steps'.length) : steps <+: steps' := by
  rw [List.prefix_iff_eq_take]
  apply List.ext_getElem
  · simpa using hlength
  · intro i hi hi'
    rw [List.getElem_take]
    exact Except.ok.inj ((hsteps i hi).symm.trans (hsteps' i (by omega)))

theorem EndsWith.follows {job : Job α n} {elapsed : Nat → α} {steps : List (Step α n)}
    {final : Step α n} {stop : Stop} (hends : job.EndsWith elapsed steps final stop) :
    job.Follows (steps ++ [final]) := by
  intro i hi
  rcases Nat.lt_or_ge i steps.length with hlt | hge
  · rw [hends.passes.step i hlt, List.getElem_append_left hlt]
  · obtain rfl : i = steps.length := by
      simp at hi
      omega
    rw [hends.step, List.getElem_concat_length rfl]

section Pair

variable {job : Job α n} {settings : Settings α} {elapsed elapsed' : Nat → α}
  {steps steps' : List (Step α n)} {final final' : Step α n} {stop stop' : Stop}
  (hends : job.EndsWith elapsed steps final stop)
  (hends' : { job with settings }.EndsWith elapsed' steps' final' stop')

include hends hends'

/-- A run that is nowhere less strict, and without time limit, does not stop
earlier. -/
theorem EndsWith.length_le [Scalar.Chains α]
    (htime : settings.timeLimit = none) (hiter : job.settings.maxIter ≤ settings.maxIter)
    (hinfeas : settings.tolInfeas ≤ job.settings.tolInfeas)
    (hgap : settings.tolRelGap ≤ job.settings.tolRelGap) :
    steps.length ≤ steps'.length := by
  apply Nat.le_of_not_lt
  intro hlt
  -- The second run would stop at an iteration that the first one went past.
  have hsame : steps[steps'.length] = final' := by
    have hstep := hends.passes.step steps'.length hlt
    rw [← stepAfter_settings job settings, hends'.step] at hstep
    exact (Except.ok.inj hstep).symm
  obtain ⟨hrejects, _⟩ :=
    Settings.stop?_eq_none_iff.mp (hends.passes.goes_on steps'.length hlt)
  rw [hsame] at hrejects
  have hnone : settings.stop? final'.record (elapsed' (steps'.length + 1)) = none := by
    apply Settings.stop?_eq_none_iff.mpr
    constructor
    · apply Bool.eq_false_iff.mpr
      intro haccepts
      rw [Settings.accepts, Bool.and_eq_true, decide_eq_true_iff, decide_eq_true_iff]
        at haccepts
      obtain ⟨hbelow, hbelow'⟩ := haccepts
      simp [Settings.accepts, Scalar.Chains.chain hbelow hgap,
        Scalar.Chains.chain hbelow' hinfeas] at hrejects
    · rw [Settings.timedOut, htime, Option.any_none]
  have hfull := hends'.full hnone
  have hroom := hends.room
  change steps'.length + 1 = settings.maxIter at hfull
  omega

end Pair

/-- A run that is cut off behind its last iteration, and reads no clock, ends with
the same one and has the same status. -/
theorem EndsWith.cutAt {job : Job α n} {elapsed : Nat → α} {steps : List (Step α n)}
    {final : Step α n} {stop : Stop} (hends : job.EndsWith elapsed steps final stop)
    (elapsed' : Nat → α) :
    ∃ stop', { job with settings := job.settings.cutAt (steps.length + 1) }.EndsWith
      elapsed' steps final stop' ∧ stop'.status = stop.status := by
  set settings := job.settings.cutAt (steps.length + 1) with hsettings
  have haccepts (r : Record Nat α) : settings.accepts r = job.settings.accepts r := rfl
  have htimedOut (now : α) : settings.timedOut now = false := rfl
  refine ⟨_, ⟨⟨?_, ?_⟩, ?_, rfl, Nat.lt_succ_self _, fun _ => rfl⟩, ?_⟩
  · intro i hi
    rw [stepAfter_settings, hends.passes.step i hi]
  · intro i hi
    obtain ⟨hrejects, _⟩ := Settings.stop?_eq_none_iff.mp (hends.passes.goes_on i hi)
    exact Settings.stop?_eq_none_iff.mpr ⟨hrejects, htimedOut _⟩
  · rw [stepAfter_settings, hends.step]
  · rw [← hends.stop_eq, Settings.status_stop?, Settings.status_stop?, haccepts]

end Job

/-- Runs of one problem that differ in their limits and tolerances. One history is
the beginning of the other; a run that is nowhere less strict, and like the other
without a time limit, has the longer one. A run that returns after some number of
iterations, stopped by the clock or not, gives the answer of the run that reads no
clock and may make that many. -/
theorem run_truncated {program : Program α n} {penalty : Penalty α n}
    {settings settings' : Settings α} {start : Vec α n} {job job' : Job α n}
    (hvalid : settings.Valid) (hvalid' : settings'.Valid)
    (hrho : settings.rho = settings'.rho)
    (hjob : Job.ofProgram? program penalty settings start = some job)
    (hjob' : Job.ofProgram? program penalty settings' start = some job') :
    (∀ elapsed elapsed' result result', job.result elapsed = .ok result →
      job'.result elapsed' = .ok result' →
      result.history <+: result'.history ∨ result'.history <+: result.history) ∧
    (∀ [Scalar.Chains α], settings.maxIter ≤ settings'.maxIter →
      settings'.tolInfeas ≤ settings.tolInfeas →
      settings'.tolRelGap ≤ settings.tolRelGap →
      settings.timeLimit = none → settings'.timeLimit = none →
      ∀ elapsed elapsed' result result', job.result elapsed = .ok result →
        job'.result elapsed' = .ok result' → result.history <+: result'.history) ∧
    ∀ elapsed result, job.result elapsed = .ok result →
      (settings.cutAt result.iterations).Valid ∧
      ∃ job'', Job.ofProgram? program penalty (settings.cutAt result.iterations) start =
        some job'' ∧ ∀ elapsed', job''.result elapsed' = .ok result := by
  have hsettings : job.settings = settings := by
    obtain ⟨system, _, rfl⟩ := Job.ofProgram?_eq_some hjob
    rfl
  obtain rfl : { job with settings := settings' } = job' :=
    Option.some.inj ((Job.ofProgram?_settings hjob hrho).symm.trans hjob')
  obtain ⟨hiter, _⟩ := Settings.valid_iff.mp hvalid
  obtain ⟨hiter', _⟩ := Settings.valid_iff.mp hvalid'
  rw [← hsettings] at hiter
  refine ⟨?_, ?_, ?_⟩
  · intro elapsed elapsed' result result' hresult hresult'
    obtain ⟨_, steps, final, stop, hends, rfl⟩ := (Job.result_eq_ok_iff hiter).mp hresult
    obtain ⟨_, steps', final', stop', hends', rfl⟩ :=
      (Job.result_eq_ok_iff hiter').mp hresult'
    have hfollows := hends.follows
    have hfollows' := Job.follows_settings hends'.follows
    rcases Nat.le_total (steps ++ [final]).length (steps' ++ [final']).length with hle | hle
    · exact .inl ((hfollows.prefix_of_length_le hfollows' hle).map _)
    · exact .inr ((hfollows'.prefix_of_length_le hfollows hle).map _)
  · intro hchains hmaxIter hinfeas hgap htime htime' elapsed elapsed' result result'
      hresult hresult'
    obtain ⟨_, steps, final, stop, hends, rfl⟩ := (Job.result_eq_ok_iff hiter).mp hresult
    obtain ⟨_, steps', final', stop', hends', rfl⟩ :=
      (Job.result_eq_ok_iff hiter').mp hresult'
    rw [← hsettings] at hmaxIter hinfeas hgap
    have hle := hends.length_le hends' htime' hmaxIter hinfeas hgap
    exact (hends.follows.prefix_of_length_le (Job.follows_settings hends'.follows)
      (by simpa using hle)).map _
  · intro elapsed result hresult
    obtain ⟨hcount, steps, final, stop, hends, rfl⟩ :=
      (Job.result_eq_ok_iff hiter).mp hresult
    have hroom : steps.length + 1 ≤ job.settings.maxIter := hends.room
    refine ⟨hvalid.cutAt (Nat.succ_pos _), _, Job.ofProgram?_settings hjob rfl, ?_⟩
    intro elapsed'
    obtain ⟨stop', hcut, hstatus⟩ := hends.cutAt elapsed'
    rw [hsettings] at hcut
    apply (Job.result_eq_ok_iff (Nat.succ_pos _)).mpr
    refine ⟨hroom.trans_lt hcount, steps, final, stop', hcut, ?_⟩
    rw [Job.resultAt, Job.resultAt, hstatus]

/-- A tolerance that the first iteration on two weights does not meet. -/
noncomputable def strictSettings : Settings ℝ := { pairSettings with tolRelGap := 1 / 100 }

noncomputable def lateSettings : Settings ℝ := { strictSettings with timeLimit := some 1 }

theorem strictSettings_valid : strictSettings.Valid := by
  have hstrict : strictSettings.Accepted := by
    simp [Settings.accepted_iff, strictSettings, pairSettings]
  exact hstrict

theorem lateSettings_valid : lateSettings.Valid := by
  have hlate : lateSettings.Accepted := by
    simp [Settings.accepted_iff, lateSettings, strictSettings, pairSettings]
  exact hlate

theorem Job.IsPair.exists_late_result {job : Job ℝ 2} (hjob : job.IsPair) :
    ∃ result, { job with settings := lateSettings }.result (fun _ => 2) = .ok result ∧
      result.status = .iterationLimit ∧ result.iterations = 1 := by
  obtain ⟨step, hstep⟩ := job.exists_step_of_pos two_pos 0
  obtain ⟨hprimal, hdual⟩ := hjob.first_record hstep
  have hgap : step.record.gap = 1 / 50 := by
    rw [(hjob.accepted.advances_of_step rfl hstep).gap_eq, hprimal, hdual]
    norm_num
  have hrejects : lateSettings.accepts step.record = false := by
    have hlarge : ¬ step.record.gap < lateSettings.tolRelGap := by
      rw [hgap]
      change ¬ (1 / 50 : ℝ) < 1 / 100
      norm_num
    simp [Settings.accepts, hlarge]
  have hstop : lateSettings.stop? step.record 2 = some .timeLimit := by
    have hlate : lateSettings.timedOut 2 = true := by
      change decide ((1 : ℝ) < 2) = true
      norm_num
    simp [Settings.stop?, hrejects, hlate]
  have hends : { job with settings := lateSettings }.EndsWith (fun _ => 2) [] step
      .timeLimit :=
    .of_stop (.nil _ _) (Nat.succ_pos 9) ((stepAfter_settings job lateSettings 0).trans hstep)
      hstop
  have hcount : lateSettings.maxIter < countLimit := pairSettings_maxIter_lt
  exact ⟨_, (result_eq_ok_iff (Nat.succ_pos 9)).mpr
    ⟨hcount, [], step, .timeLimit, hends, rfl⟩, rfl, rfl⟩

/-- On two weights: the run that stops after one iteration begins the stricter run,
and the one that the clock stops there answers like the one that is cut off there. -/
theorem run_truncated_pair :
    ∃ (program : Program ℝ 2) (job strict late : Job ℝ 2),
      Job.ofProgram? program pairPenalty pairSettings #v[1, 0] = some job ∧
      Job.ofProgram? program pairPenalty strictSettings #v[1, 0] = some strict ∧
      Job.ofProgram? program pairPenalty lateSettings #v[1, 0] = some late ∧
      (∃ result result', job.result 0 = .ok result ∧ strict.result 0 = .ok result' ∧
        result.history <+: result'.history) ∧
      ∃ result, late.result (fun _ => 2) = .ok result ∧ result.iterations = 1 ∧
        ∃ cut, Job.ofProgram? program pairPenalty (lateSettings.cutAt 1) #v[1, 0] =
          some cut ∧ cut.result 0 = .ok result := by
  obtain ⟨job, hjob⟩ := exists_pairJob
  have hprepared := hjob.accepted.prepared
  rw [hjob.penalty_eq, hjob.settings_eq, hjob.start_eq] at hprepared
  have hstrict : Job.ofProgram? job.program pairPenalty strictSettings #v[1, 0] =
      some { job with settings := strictSettings } := Job.ofProgram?_settings hprepared rfl
  have hlate : Job.ofProgram? job.program pairPenalty lateSettings #v[1, 0] =
      some { job with settings := lateSettings } := Job.ofProgram?_settings hprepared rfl
  refine ⟨job.program, job, _, _, hprepared, hstrict, hlate, ?_, ?_⟩
  · obtain ⟨_, hstricter, _⟩ := run_truncated pairSettings_accepted strictSettings_valid rfl
      hprepared hstrict
    obtain ⟨result, hresult, _⟩ := hjob.exists_result 0
    have hcount : strictSettings.maxIter < Job.countLimit := pairSettings_maxIter_lt
    obtain ⟨result', hresult'⟩ := Job.exists_result_of_pos
      { job with settings := strictSettings } two_pos hcount 0
    refine ⟨result, result', hresult, hresult', ?_⟩
    refine hstricter le_rfl le_rfl ?_ rfl rfl 0 0 result result' hresult hresult'
    change (1 / 100 : ℝ) ≤ 1 / 20
    norm_num
  · obtain ⟨_, _, hcut⟩ := run_truncated lateSettings_valid pairSettings_accepted rfl
      hlate hprepared
    obtain ⟨result, hresult, _, hone⟩ := hjob.exists_late_result
    obtain ⟨_, cut, hprogram, hsame⟩ := hcut (fun _ => 2) result hresult
    rw [hone] at hprogram
    exact ⟨result, hresult, hone, cut, hprogram, hsame 0⟩

end SparseWeights
