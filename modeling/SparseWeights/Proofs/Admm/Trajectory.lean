import SparseWeights.Admm.Run

/-!
The states that a job goes through, apart from when it stops. The loop of a run
follows this one trajectory: its records are those of the first iterations, and
it ends in one of the ways that `Outcome` lists. The statements hold for any
scalars, so for doubles too.
-/

namespace SparseWeights

namespace Job

variable {α : Type} [Scalar α] {n : Nat}

/-- A job is made of what it was asked for and of a system for the weight update. -/
theorem ofProgram?_eq_some {program : Program α n} {penalty : Penalty α n}
    {settings : Settings α} {start : Vec α n} {job : Job α n}
    (hjob : ofProgram? program penalty settings start = some job) :
    ∃ system, WeightSystem.ofMatrix? program.quadratic (settings.rhoFor program) =
      some system ∧ job = ⟨program, penalty, settings, system, start⟩ := by
  rw [ofProgram?, Option.map_eq_some_iff] at hjob
  obtain ⟨system, hsystem, heq⟩ := hjob
  exact ⟨system, hsystem, heq.symm⟩

/-- The state after so many iterations, or the fault that one of them ran into. -/
def stateAfter (job : Job α n) : Nat → Except Fault (State α n)
  | 0 => .ok (.start job.start)
  | i + 1 => do
      let s ← job.stateAfter i
      let step ← s.advance job.program job.penalty job.system (i + 1)
      return step.next

/-- The iteration that follows the first `i` ones. -/
def stepAfter (job : Job α n) (i : Nat) : Except Fault (Step α n) := do
  let s ← job.stateAfter i
  s.advance job.program job.penalty job.system (i + 1)

theorem stateAfter_succ (job : Job α n) (i : Nat) :
    job.stateAfter (i + 1) = (job.stepAfter i).map (·.next) := by
  simp only [stateAfter, stepAfter, bind, Except.bind]
  cases job.stateAfter i with
  | error cause => rfl
  | ok s => rfl

theorem stepAfter_of_state {job : Job α n} {i : Nat} {s : State α n}
    (hs : job.stateAfter i = .ok s) :
    job.stepAfter i = s.advance job.program job.penalty job.system (i + 1) := by
  rw [stepAfter, hs]
  rfl

theorem stateAfter_succ_of_step {job : Job α n} {i : Nat} {step : Step α n}
    (hstep : job.stepAfter i = .ok step) : job.stateAfter (i + 1) = .ok step.next := by
  rw [stateAfter_succ, hstep]
  rfl

theorem exists_state_of_step {job : Job α n} {i : Nat} {step : Step α n}
    (hstep : job.stepAfter i = .ok step) :
    ∃ s, job.stateAfter i = .ok s ∧
      s.advance job.program job.penalty job.system (i + 1) = .ok step := by
  cases hs : job.stateAfter i with
  | error cause =>
      rw [stepAfter, hs] at hstep
      cases hstep
  | ok s => exact ⟨s, rfl, (stepAfter_of_state hs).symm.trans hstep⟩

/-- From corresponding states the second job has an iteration that corresponds to
that of the first. -/
structure InStep {β : Type} [Scalar β] (states : State α n → State β n → Prop)
    (steps : Step α n → Step β n → Prop) (job : Job α n) (job' : Job β n) : Prop where
  start : states (.start job.start) (.start job'.start)
  advance : ∀ {i : Nat} {s : State α n} {s' : State β n} {step : Step α n}, states s s' →
    s.advance job.program job.penalty job.system i = .ok step →
    ∃ step', s'.advance job'.program job'.penalty job'.system i = .ok step' ∧
      steps step step'
  next : ∀ {step : Step α n} {step' : Step β n}, steps step step' →
    states step.next step'.next

namespace InStep

variable {β : Type} [Scalar β] {states : State α n → State β n → Prop}
  {steps : Step α n → Step β n → Prop} {job : Job α n} {job' : Job β n}
  (hsteps : InStep states steps job job')

include hsteps

theorem exists_state {i : Nat} {s : State α n} (hs : job.stateAfter i = .ok s) :
    ∃ s', job'.stateAfter i = .ok s' ∧ states s s' := by
  induction i generalizing s with
  | zero =>
      obtain rfl := Except.ok.inj hs
      exact ⟨_, rfl, hsteps.start⟩
  | succ i ih =>
      cases hstep : job.stepAfter i with
      | error cause =>
          rw [stateAfter_succ, hstep] at hs
          cases hs
      | ok step =>
          rw [stateAfter_succ_of_step hstep] at hs
          obtain rfl := Except.ok.inj hs
          obtain ⟨previous, hprevious, hadvance⟩ := exists_state_of_step hstep
          obtain ⟨previous', hprevious', hstates⟩ := ih hprevious
          obtain ⟨step', hadvance', hboth⟩ := hsteps.advance hstates hadvance
          have hstep' := (stepAfter_of_state hprevious').trans hadvance'
          exact ⟨step'.next, stateAfter_succ_of_step hstep', hsteps.next hboth⟩

theorem exists_step {i : Nat} {step : Step α n} (hstep : job.stepAfter i = .ok step) :
    ∃ step', job'.stepAfter i = .ok step' ∧ steps step step' := by
  obtain ⟨s, hs, hadvance⟩ := exists_state_of_step hstep
  obtain ⟨s', hs', hstates⟩ := hsteps.exists_state hs
  obtain ⟨step', hadvance', hboth⟩ := hsteps.advance hstates hadvance
  exact ⟨step', (stepAfter_of_state hs').trans hadvance', hboth⟩

end InStep

/-- The steps are the first iterations of the job, and after none of them does
the rule say to stop. -/
structure Passes (job : Job α n) (elapsed : Nat → α) (steps : List (Step α n)) :
    Prop where
  step : ∀ i (h : i < steps.length), job.stepAfter i = .ok steps[i]
  goes_on : ∀ i (h : i < steps.length),
    job.settings.stop? steps[i].record (elapsed (i + 1)) = none

theorem Passes.nil (job : Job α n) (elapsed : Nat → α) : job.Passes elapsed [] :=
  ⟨by simp, by simp⟩

theorem Passes.stateAfter {job : Job α n} {elapsed : Nat → α} {steps : List (Step α n)}
    {step : Step α n} (hsteps : job.Passes elapsed (steps ++ [step])) :
    job.stateAfter (steps.length + 1) = .ok step.next := by
  apply stateAfter_succ_of_step
  rw [hsteps.step steps.length (by simp)]
  simp

theorem Passes.snoc {job : Job α n} {elapsed : Nat → α} {steps : List (Step α n)}
    {step : Step α n} (hsteps : job.Passes elapsed steps)
    (hstep : job.stepAfter steps.length = .ok step)
    (hgoes : job.settings.stop? step.record (elapsed (steps.length + 1)) = none) :
    job.Passes elapsed (steps ++ [step]) := by
  constructor
  · intro i h
    rcases Nat.lt_or_ge i steps.length with hi | hi
    · rw [List.getElem_append_left hi]
      exact hsteps.step i hi
    · obtain rfl : i = steps.length := by simp at h; omega
      simpa using hstep
  · intro i h
    rcases Nat.lt_or_ge i steps.length with hi | hi
    · rw [List.getElem_append_left hi]
      exact hsteps.goes_on i hi
    · obtain rfl : i = steps.length := by simp at h; omega
      simpa using hgoes

/-- The ways in which a run with room for `limit` iterations can end. -/
inductive Outcome (job : Job α n) (elapsed : Nat → α) (limit : Nat) :
    Trace α n → Prop where
  | exhausted (steps : List (Step α n)) (last : State α n)
      (hpasses : job.Passes elapsed steps) (hlength : steps.length = limit)
      (hlast : job.stateAfter limit = .ok last) :
      Outcome job elapsed limit ⟨steps.map (·.record), .ok (.iterationLimit, last)⟩
  | stopped (steps : List (Step α n)) (final : Step α n) (stop : Stop)
      (hpasses : job.Passes elapsed steps) (hlength : steps.length < limit)
      (hfinal : job.stepAfter steps.length = .ok final)
      (hstop : job.settings.stop? final.record (elapsed (steps.length + 1)) = some stop) :
      Outcome job elapsed limit
        ⟨(steps ++ [final]).map (·.record), .ok (stop, final.next)⟩
  | failed (steps : List (Step α n)) (cause : Fault)
      (hpasses : job.Passes elapsed steps) (hlength : steps.length < limit)
      (hcause : job.stepAfter steps.length = .error cause) :
      Outcome job elapsed limit ⟨steps.map (·.record), .error cause⟩

/-- The loop, entered after some iterations that did not stop it, ends in one
of those ways. -/
private theorem iterate_outcome (job : Job α n) (elapsed : Nat → α) (fuel : Nat)
    (steps : List (Step α n)) (s : State α n) (hpasses : job.Passes elapsed steps)
    (hs : job.stateAfter steps.length = .ok s) :
    Outcome job elapsed (steps.length + fuel)
      (iterate job.program job.penalty job.system job.settings elapsed fuel
        steps.length s (steps.map (·.record)).reverse) := by
  induction fuel generalizing steps s with
  | zero =>
      rw [iterate, List.reverse_reverse]
      exact .exhausted steps s hpasses rfl hs
  | succ fuel ih =>
      have hnext := stepAfter_of_state hs
      have hroom : steps.length < steps.length + (fuel + 1) := by omega
      rw [iterate]
      cases hstep : s.advance job.program job.penalty job.system (steps.length + 1) with
      | error cause =>
          simp only [List.reverse_reverse]
          exact .failed steps cause hpasses hroom (hnext.trans hstep)
      | ok step =>
          dsimp only
          have hrecords : step.record :: (steps.map (·.record)).reverse =
              ((steps ++ [step]).map (·.record)).reverse := by
            simp
          cases hstop : job.settings.stop? step.record (elapsed (steps.length + 1)) with
          | some stop =>
              simp only [hrecords, List.reverse_reverse]
              exact .stopped steps step stop hpasses hroom
                (hnext.trans hstep) hstop
          | none =>
              have hlonger := hpasses.snoc (hnext.trans hstep) hstop
              have hrest := ih (steps ++ [step]) step.next hlonger
                (by simpa using hlonger.stateAfter)
              simp only [hrecords]
              simpa [Nat.add_assoc, Nat.add_comm 1 fuel] using hrest

/-- The iterations up to a limit, without the question of whether it can be
counted to. -/
def loop (job : Job α n) (elapsed : Nat → α) (limit : Nat) : Trace α n :=
  iterate job.program job.penalty job.system job.settings elapsed limit 0
    (.start job.start) []

theorem trace_of_count {job : Job α n} (hcount : job.settings.maxIter < countLimit)
    (elapsed : Nat → α) : job.trace elapsed = job.loop elapsed job.settings.maxIter := by
  rw [trace, if_pos hcount, loop]

/-- A limit that cannot be counted to leaves no record. -/
theorem trace_of_countLimit (job : Job α n) (elapsed : Nat → α)
    (hcount : ¬ job.settings.maxIter < countLimit) :
    job.trace elapsed = ⟨[], .error .tooLarge⟩ := by
  rw [trace, if_neg hcount]

theorem loop_outcome (job : Job α n) (elapsed : Nat → α) (limit : Nat) :
    Outcome job elapsed limit (job.loop elapsed limit) := by
  have hloop := iterate_outcome job elapsed limit [] (.start job.start)
    (.nil job elapsed) rfl
  simpa [loop] using hloop

/-- Every run follows the trajectory of its job and ends in one of the ways. -/
theorem trace_outcome (job : Job α n) (elapsed : Nat → α)
    (hcount : job.settings.maxIter < countLimit) :
    Outcome job elapsed job.settings.maxIter (job.trace elapsed) := by
  rw [trace_of_count hcount]
  exact job.loop_outcome elapsed job.settings.maxIter

/-- Steps that were passed end in front of the first iteration that stops. -/
theorem Passes.length_le {job : Job α n} {elapsed : Nat → α} {steps : List (Step α n)}
    (hsteps : job.Passes elapsed steps) {k : Nat} {final : Step α n} {stop : Stop}
    (hfinal : job.stepAfter k = .ok final)
    (hstop : job.settings.stop? final.record (elapsed (k + 1)) = some stop) :
    steps.length ≤ k := by
  apply Nat.le_of_not_lt
  intro hk
  have hgoes := hsteps.goes_on k hk
  have hsame := (hsteps.step k hk).symm.trans hfinal
  rw [Except.ok.inj hsame, hstop] at hgoes
  cases hgoes

theorem Passes.eq_of_length {job : Job α n} {elapsed : Nat → α}
    {steps steps' : List (Step α n)} (hsteps : job.Passes elapsed steps)
    (hsteps' : job.Passes elapsed steps') (hlength : steps.length = steps'.length) :
    steps = steps' := by
  apply List.ext_getElem hlength
  intro i hi hi'
  exact Except.ok.inj ((hsteps.step i hi).symm.trans (hsteps'.step i hi'))

/-- A loop stops at the first iteration at which it may, if that is within the
limit. -/
theorem loop_of_stop {job : Job α n} {elapsed : Nat → α} {limit : Nat}
    {steps : List (Step α n)} {final : Step α n} {stop : Stop}
    (hpasses : job.Passes elapsed steps) (hlength : steps.length < limit)
    (hfinal : job.stepAfter steps.length = .ok final)
    (hstop : job.settings.stop? final.record (elapsed (steps.length + 1)) = some stop) :
    job.loop elapsed limit =
      ⟨(steps ++ [final]).map (·.record), .ok (stop, final.next)⟩ := by
  have houtcome := job.loop_outcome elapsed limit
  generalize job.loop elapsed limit = trace at houtcome
  cases houtcome with
  | exhausted steps' last hpasses' hlength' =>
      have hle := hpasses'.length_le hfinal hstop
      omega
  | stopped steps' final' stop' hpasses' hlength' hfinal' hstop' =>
      have hle := hpasses'.length_le hfinal hstop
      have hge := hpasses.length_le hfinal' hstop'
      obtain rfl := hpasses.eq_of_length hpasses' (Nat.le_antisymm hge hle)
      obtain rfl := Except.ok.inj (hfinal.symm.trans hfinal')
      obtain rfl := Option.some.inj (hstop.symm.trans hstop')
      rfl
  | failed steps' cause hpasses' hlength' hcause =>
      have hle := hpasses'.length_le hfinal hstop
      rcases Nat.eq_or_lt_of_le hle with heq | hlt
      · rw [heq, hfinal] at hcause
        cases hcause
      · rw [hpasses.step _ hlt] at hcause
        cases hcause

theorem trace_of_stop {job : Job α n} {elapsed : Nat → α}
    (hcount : job.settings.maxIter < countLimit) {steps : List (Step α n)}
    {final : Step α n} {stop : Stop} (hpasses : job.Passes elapsed steps)
    (hlength : steps.length < job.settings.maxIter)
    (hfinal : job.stepAfter steps.length = .ok final)
    (hstop : job.settings.stop? final.record (elapsed (steps.length + 1)) = some stop) :
    job.trace elapsed =
      ⟨(steps ++ [final]).map (·.record), .ok (stop, final.next)⟩ := by
  rw [trace_of_count hcount]
  exact loop_of_stop hpasses hlength hfinal hstop

private theorem record_of_passes {job : Job α n} {elapsed : Nat → α}
    {steps : List (Step α n)} (hpasses : job.Passes elapsed steps) {i : Nat}
    {r : Record Nat α} (hr : (steps.map (·.record))[i]? = some r) :
    ∃ step, job.stepAfter i = .ok step ∧ step.record = r := by
  rw [List.getElem?_map, Option.map_eq_some_iff] at hr
  obtain ⟨step, hstep, hrecord⟩ := hr
  obtain ⟨hi, rfl⟩ := List.getElem?_eq_some_iff.mp hstep
  exact ⟨steps[i], hpasses.step i hi, hrecord⟩

/-- Every record of a run is that of the iteration at its place. -/
theorem exists_step_of_getElem? {job : Job α n} {elapsed : Nat → α} {i : Nat}
    {r : Record Nat α} (hr : (job.trace elapsed).records[i]? = some r) :
    ∃ step, job.stepAfter i = .ok step ∧ step.record = r := by
  by_cases hcount : job.settings.maxIter < countLimit
  · have houtcome := job.trace_outcome elapsed hcount
    generalize job.trace elapsed = trace at houtcome hr
    cases houtcome with
    | exhausted steps last hpasses => exact record_of_passes hpasses hr
    | stopped steps final stop hpasses hlength hfinal =>
        rcases Nat.lt_or_ge i steps.length with hi | hi
        · rw [List.map_append, List.getElem?_append_left (by simpa using hi)] at hr
          exact record_of_passes hpasses hr
        · obtain ⟨hlast, hrecord⟩ := List.getElem?_eq_some_iff.mp hr
          obtain rfl : i = steps.length := by
            simp at hlast
            omega
          exact ⟨final, hfinal, by simpa using hrecord⟩
    | failed steps cause hpasses => exact record_of_passes hpasses hr
  · rw [job.trace_of_countLimit elapsed hcount] at hr
    cases hr

/-- A run along the trajectory of its job. Every record is that of the iteration at
its place, and an answer is read off the state behind the last one. -/
structure RunsAlong (job : Job α n) (elapsed : Nat → α) : Prop where
  record : ∀ (i : Nat) (r : Record Nat α), (job.trace elapsed).records[i]? = some r →
    ∃ step, job.stepAfter i = .ok step ∧ step.record = r
  history : ∀ result, job.result elapsed = .ok result →
    result.history = (job.trace elapsed).records ∧
      result.iterations = result.history.length ∧
      ∀ r, result.history.getLast? = some r → result.objective = r.primal
  answer : ∀ result, job.result elapsed = .ok result →
    ∃ last, job.stateAfter result.iterations = .ok last ∧ result.w = last.v ∧
      result.penalty = job.penalty.value last.v ∧ result.alpha = last.alpha ∧
      result.beta = last.beta

private theorem history_of_result {job : Job α n} {elapsed : Nat → α} {result : Result α n}
    (hresult : job.result elapsed = .ok result) :
    result.history = (job.trace elapsed).records ∧
      result.iterations = result.history.length ∧
      ∀ r, result.history.getLast? = some r → result.objective = r.primal := by
  rw [Job.result, Trace.result] at hresult
  cases hending : (job.trace elapsed).ending with
  | error cause =>
      rw [hending] at hresult
      cases hresult
  | ok ending =>
      rw [hending] at hresult
      obtain rfl := Except.ok.inj hresult
      refine ⟨rfl, rfl, ?_⟩
      intro r hr
      simp [hr]

/-- A run with an answer was not refused for its limit. -/
private theorem exists_outcome_of_result {job : Job α n} {elapsed : Nat → α}
    {result : Result α n} (hresult : job.result elapsed = .ok result) :
    ∃ trace, Outcome job elapsed job.settings.maxIter trace ∧
      trace.result job.penalty job.system.rho = .ok result := by
  rw [Job.result] at hresult
  by_cases hcount : job.settings.maxIter < countLimit
  · exact ⟨_, job.trace_outcome elapsed hcount, hresult⟩
  · rw [job.trace_of_countLimit elapsed hcount] at hresult
    cases hresult

private theorem answer_of_result {job : Job α n} {elapsed : Nat → α} {result : Result α n}
    (hresult : job.result elapsed = .ok result) :
    ∃ last, job.stateAfter result.iterations = .ok last ∧ result.w = last.v ∧
      result.penalty = job.penalty.value last.v ∧ result.alpha = last.alpha ∧
      result.beta = last.beta := by
  obtain ⟨trace, houtcome, htrace⟩ := exists_outcome_of_result hresult
  cases houtcome with
  | exhausted steps last hpasses hlength hlast =>
      obtain rfl := Except.ok.inj htrace
      refine ⟨last, ?_, rfl, rfl, rfl, rfl⟩
      rw [← hlast, ← hlength, List.length_map]
  | stopped steps final stop hpasses hlength hfinal =>
      obtain rfl := Except.ok.inj htrace
      refine ⟨final.next, ?_, rfl, rfl, rfl, rfl⟩
      rw [List.length_map, List.length_append, List.length_singleton]
      exact stateAfter_succ_of_step hfinal
  | failed steps cause => cases htrace

/-- Every run goes along the trajectory of its job. -/
theorem runsAlong (job : Job α n) (elapsed : Nat → α) : job.RunsAlong elapsed where
  record := fun _ _ => exists_step_of_getElem?
  history := fun _ => history_of_result
  answer := fun _ => answer_of_result

/-- What both runs record at a place are corresponding iterations. -/
theorem InStep.exists_steps_of_getElem? {β : Type} [Scalar β]
    {states : State α n → State β n → Prop} {steps : Step α n → Step β n → Prop}
    {job : Job α n} {job' : Job β n} (hsteps : InStep states steps job job')
    {elapsed : Nat → α} {elapsed' : Nat → β} {i : Nat} {r : Record Nat α}
    {r' : Record Nat β} (hr : (job.trace elapsed).records[i]? = some r)
    (hr' : (job'.trace elapsed').records[i]? = some r') :
    ∃ step step', job.stepAfter i = .ok step ∧ step.record = r ∧
      job'.stepAfter i = .ok step' ∧ step'.record = r' ∧ steps step step' := by
  obtain ⟨step, hstep, hrecord⟩ := exists_step_of_getElem? hr
  obtain ⟨final, hfinal, hrecord'⟩ := exists_step_of_getElem? hr'
  obtain ⟨step', hstep', hboth⟩ := hsteps.exists_step hstep
  obtain rfl := Except.ok.inj (hstep'.symm.trans hfinal)
  exact ⟨step, step', hstep, hrecord, hfinal, hrecord', hboth⟩

theorem exists_step_of_record {job : Job α n} {elapsed : Nat → α} {r : Record Nat α}
    (hr : r ∈ (job.trace elapsed).records) :
    ∃ i step, job.stepAfter i = .ok step ∧ step.record = r := by
  obtain ⟨i, hi⟩ := List.mem_iff_getElem?.mp hr
  exact ⟨i, exists_step_of_getElem? hi⟩

private theorem accepts_of_stop? {settings : Settings α} {r : Record Nat α}
    {now : α} {stop : Stop} (hstop : settings.stop? r now = some stop)
    (hstatus : stop.status = .optimal) : settings.accepts r = true := by
  unfold Settings.stop? at hstop
  split at hstop
  · assumption
  · split at hstop
    · cases hstop
      cases hstatus
    · cases hstop

/-- A run that ends well ends with an iteration that passes the test, and
answers with the state and the objective of that iteration. -/
theorem exists_step_of_optimal {job : Job α n} {elapsed : Nat → α} {result : Result α n}
    (hresult : job.result elapsed = .ok result) (hstatus : result.status = .optimal) :
    ∃ step, job.stepAfter (result.iterations - 1) = .ok step ∧
      job.settings.accepts step.record = true ∧ result.w = step.next.v ∧
      result.objective = step.record.primal := by
  obtain ⟨trace, houtcome, htrace⟩ := exists_outcome_of_result hresult
  cases houtcome with
  | exhausted steps last hpasses =>
      obtain rfl := Except.ok.inj htrace
      cases hstatus
  | stopped steps final stop hpasses hlength hfinal hstop =>
      obtain rfl := Except.ok.inj htrace
      refine ⟨final, ?_, ?_, rfl, ?_⟩
      · simpa using hfinal
      · exact accepts_of_stop? hstop hstatus
      · simp
  | failed steps cause hpasses => cases htrace

end Job

end SparseWeights
