import SparseWeights.Admm.Watch
import SparseWeights.Proofs.Admm.Agreement
import SparseWeights.Proofs.Admm.Truncation

/-!
Runs under the eyes of others. Whatever effects watching has, they come to those
of handing out the records in their order, and the answer is the one of the run
that nobody watches. So nothing that is shown, printed or stored can change it.
What the answer itself has to satisfy follows from how a run ends. The scalars
are arbitrary, doubles that are not finite included.
-/

namespace SparseWeights

variable {α : Type} [Scalar α] {n : Nat}

namespace Columns

variable {α : Type}

def ofHistory (h : History Nat α) : Columns α where
  iteration := h.map (·.iteration)
  primal := h.map (·.primal)
  dual := h.map (·.dual)
  gap := h.map (·.gap)
  primalResidual := h.map (·.primalResidual)
  dualResidual := h.map (·.dualResidual)
  rho := h.map (·.rho)

theorem push_ofHistory (h : History Nat α) (r : Record Nat α) :
    (ofHistory h).push r = ofHistory (h ++ [r]) := by
  simp [push, ofHistory]

theorem foldl_push_ofHistory (h rest : History Nat α) :
    rest.foldl push (ofHistory h) = ofHistory (h ++ rest) := by
  induction rest generalizing h with
  | nil => simp
  | cons r rest ih =>
      rw [List.foldl_cons, push_ofHistory, ih, List.append_assoc, List.singleton_append]

theorem length_of_mem_lengths {h : History Nat α} {k : Nat}
    (hk : k ∈ (ofHistory h).lengths) : k = h.length := by
  simpa [lengths, ofHistory] using hk

end Columns

/-- What an iteration puts into its record besides its measurements. -/
theorem State.record_of_advance {program : Program α n} {penalty : Penalty α n}
    {system : WeightSystem α n} {i : Nat} {s : State α n} {step : Step α n}
    (hstep : s.advance program penalty system i = .ok step) :
    step.record.iteration = i ∧ step.record.rho = system.rho := by
  unfold State.advance at hstep
  split at hstep
  · cases hstep
  · dsimp only at hstep
    split at hstep
    · cases hstep
    · split at hstep
      · cases hstep
      · obtain rfl := Except.ok.inj hstep
        exact ⟨rfl, rfl⟩

theorem Job.record_of_step {job : Job α n} {i : Nat} {step : Step α n}
    (hstep : job.stepAfter i = .ok step) :
    step.record.iteration = i + 1 ∧ step.record.rho = job.system.rho := by
  obtain ⟨s, _, hadvance⟩ := exists_state_of_step hstep
  exact State.record_of_advance hadvance

/-- The loop puts its records behind those that it is given. -/
theorem iterate_seen (program : Program α n) (penalty : Penalty α n)
    (system : WeightSystem α n) (settings : Settings α) (elapsed : Nat → α)
    (fuel done : Nat) (s : State α n) (seen : History Nat α) :
    iterate program penalty system settings elapsed fuel done s seen =
      ⟨seen.reverse ++ (iterate program penalty system settings elapsed fuel done s []).records,
        (iterate program penalty system settings elapsed fuel done s []).ending⟩ := by
  induction fuel generalizing done s seen with
  | zero => simp [iterate]
  | succ fuel ih =>
      rw [iterate, iterate]
      cases s.advance program penalty system (done + 1) with
      | error cause => simp
      | ok step =>
          dsimp only
          cases settings.stop? step.record (elapsed (done + 1)) with
          | some stop => simp
          | none =>
              dsimp only
              rw [ih _ _ (step.record :: seen), ih _ _ [step.record]]
              simp

theorem Stop.eq_of_iterationLimit (stop : Stop) :
    (if stop = .iterationLimit then .iterationLimit else stop) = stop := by
  cases stop <;> rfl

def Kept.after (kept : Kept α n) (records : History Nat α) (stop : Stop)
    (last : State α n) : Kept α n where
  state := last
  stop := if stop = .iterationLimit then kept.stop else stop
  iterations := records.getLast?.elim kept.iterations (·.iteration)
  objective := records.getLast?.elim kept.objective (·.primal)
  columns := records.foldl Columns.push kept.columns

omit [Scalar α] in
theorem Kept.after_nil (kept : Kept α n) (stop : Stop) :
    kept.after [] stop kept.state =
      { kept with stop := if stop = .iterationLimit then kept.stop else stop } := rfl

omit [Scalar α] in
theorem Kept.after_cons (kept : Kept α n) (step : Step α n) (records : History Nat α)
    (stop : Stop) (last : State α n) :
    kept.after (step.record :: records) stop last =
      (kept.keep step).after records stop last := by
  cases records with
  | nil => simp [after, keep]
  | cons r records => simp [after, keep, List.getLast?_cons]

section Watched

variable {m : Type → Type} [Monad m]

def Watchers.see (watchers : Watchers m α) (settings : Settings α) (r : Record Nat α) :
    m Unit := do
  watchers.announce settings r.iteration
  watchers.receive settings r

/-- Hands out what is left of a run of which some iterations are done: its records,
and the number of an iteration that failed. -/
def Watchers.course (watchers : Watchers m α) (settings : Settings α) (done : Nat)
    (trace : Trace α n) : m Unit := do
  trace.records.forM (watchers.see settings)
  match trace.ending with
  | .ok _ => pure ()
  | .error _ => watchers.announce settings (done + trace.records.length + 1)

omit [Scalar α] in
theorem Watchers.course_cons [LawfulMonad m] (watchers : Watchers m α)
    (settings : Settings α) (done : Nat) (r : Record Nat α) (records : History Nat α)
    (ending : Except Fault (Stop × State α n)) :
    watchers.course settings done ⟨r :: records, ending⟩ = (do
      watchers.see settings r
      watchers.course settings (done + 1) ⟨records, ending⟩) := by
  have hplace : done + (records.length + 1) = done + 1 + records.length := by omega
  simp [course, hplace]

variable [LawfulMonad m] (job : Job α n) (watchers : Watchers m α) (elapsed : Nat → α)

theorem Settings.isLate_pure (settings : Settings α) (i : Nat) :
    settings.isLate (fun i => (pure (elapsed i) : m α)) i =
      pure (settings.timedOut (elapsed i)) := by
  rw [isLate, timedOut]
  cases settings.timeLimit with
  | none => rfl
  | some limit => simp

/-- A watched loop hands out its records and keeps what the loop comes to. -/
theorem Job.watchFrom_eq (fuel done : Nat) (kept : Kept α n) :
    job.watchFrom watchers (fun i => pure (elapsed i)) fuel done kept = (do
      let trace := iterate job.program job.penalty job.system job.settings elapsed fuel
        done kept.state []
      watchers.course job.settings done trace
      return trace.ending.map fun (stop, last) => kept.after trace.records stop last) := by
  induction fuel generalizing done kept with
  | zero => simp [watchFrom, iterate, Watchers.course, Kept.after, Except.map]
  | succ fuel ih =>
      rw [watchFrom, iterate]
      cases hstep : kept.state.advance job.program job.penalty job.system (done + 1) with
      | error cause => simp [Watchers.course, Except.map]
      | ok step =>
          obtain ⟨hiteration, _⟩ := State.record_of_advance hstep
          -- What is left has one record less, and what is kept one record more.
          have hstate : step.next = (kept.keep step).state := rfl
          simp only [Settings.isLate_pure, pure_bind]
          dsimp only [Settings.stop?]
          split
          · simp [Watchers.see, Watchers.course, hiteration, Kept.after_cons, hstate,
              Kept.after_nil, Except.map]
          · split
            · simp [Watchers.see, Watchers.course, hiteration, Kept.after_cons, hstate,
                Kept.after_nil, Except.map]
            · rw [ih, iterate_seen _ _ _ _ _ _ _ _ [step.record]]
              simp [Watchers.course_cons, Watchers.see, hiteration, Kept.after_cons, hstate]

def Answer.ofResult (result : Result α n) : Answer α n where
  w := result.w
  penalty := result.penalty
  alpha := result.alpha
  beta := result.beta
  objective := result.objective
  status := result.status
  iterations := result.iterations
  rho := result.rho
  columns := .ofHistory result.history

/-- A run against given readings hands out the records of its trace, and ends as the trace does. -/
theorem Job.watchBy_eq (hcount : job.settings.maxIter < countLimit) :
    job.watchBy watchers (fun i => pure (elapsed i)) = (do
      watchers.course job.settings 0 (job.trace elapsed)
      return (job.trace elapsed).ending.map fun (stop, last) =>
        (Kept.initial job.start).after (job.trace elapsed).records stop last) := by
  rw [watchBy, if_pos hcount, watchFrom_eq, trace, if_pos hcount]
  rfl

/-- A run that can be counted comes to the same under all eyes. -/
theorem Job.watch_eq (hiter : 0 < job.settings.maxIter)
    (hcount : job.settings.maxIter < countLimit) :
    job.watch watchers elapsed = (do
      watchers.course job.settings 0 (job.trace elapsed)
      return (job.result elapsed).map .ofResult) := by
  rw [watch, watchBy_eq job watchers elapsed hcount, Kept.initial]
  cases hending : (job.trace elapsed).ending with
  | error cause =>
      simp [Job.result, Trace.result, hending, Except.map, bind, Except.bind]
  | ok ending =>
      obtain ⟨_, steps, final, hends, hlast⟩ := exists_endsWith hiter hending
      obtain ⟨hiteration, _⟩ := record_of_step hends.step
      have hcolumns := Columns.foldl_push_ofHistory [] ((steps ++ [final]).map (·.record))
      rw [Job.result, hends.trace_eq hcount]
      simp only [Kept.after, Stop.eq_of_iterationLimit, hlast, Except.map]
      rw [show Columns.empty = Columns.ofHistory ([] : History Nat α) from rfl, hcolumns]
      simp [Trace.result, hiteration, Answer.ofResult, bind, Except.bind, pure, Except.pure]

end Watched

/-- The settings with other wishes for what is shown. -/
def Settings.showing (settings : Settings α) (verbose progress : Value) : Settings α :=
  { settings with verbose, progress }

namespace Job

def showing (job : Job α n) (verbose progress : Value) : Job α n :=
  { job with settings := job.settings.showing verbose progress }

theorem trace_showing (job : Job α n) (verbose progress : Value) (elapsed : Nat → α) :
    (job.showing verbose progress).trace elapsed = job.trace elapsed := by
  have hstop (r : Record Nat α) (now : α) :
      (job.settings.showing verbose progress).stop? r now = job.settings.stop? r now := rfl
  rw [trace, trace]
  change (if job.settings.maxIter < countLimit then _ else _) = _
  split
  · exact iterate_congr (fun _ _ => rfl) hstop elapsed _ 0 _ []
  · rfl

theorem result_showing (job : Job α n) (verbose progress : Value) (elapsed : Nat → α) :
    (job.showing verbose progress).result elapsed = job.result elapsed := by
  rw [result, trace_showing, result]
  rfl

end Job

def Settings.Meets (settings : Settings α) (r : Record Nat α) : Prop :=
  r.gap < settings.tolRelGap ∧
    Scalar.larger r.primalResidual r.dualResidual < settings.tolInfeas

theorem Settings.accepts_iff_meets {settings : Settings α} {r : Record Nat α} :
    settings.accepts r = true ↔ settings.Meets r := by
  simp [accepts, Meets]

/-- What an answer with the records `rows`, and `final` as the last one, satisfies. -/
structure Answer.Conforms (answer : Answer α n) (settings : Settings α)
    (elapsed : Nat → α) (rows : History Nat α) (final : Record Nat α) : Prop where
  columns_eq : answer.columns = .ofHistory (rows ++ [final])
  iterations_pos : 1 ≤ answer.iterations
  iterations_le : answer.iterations ≤ settings.maxIter
  lengths_eq : ∀ k ∈ answer.columns.lengths, k = answer.iterations
  iteration_eq : answer.columns.iteration = List.range' 1 answer.iterations
  rho_eq : answer.columns.rho = List.replicate answer.iterations answer.rho
  objective_eq : answer.objective = final.primal
  misses : ∀ r ∈ rows, ¬ settings.Meets r
  status_iff : answer.status = .optimal ↔ settings.Meets final
  otherwise : answer.status ≠ .optimal → answer.iterations = settings.maxIter ∨
    ∃ limit, settings.timeLimit = some limit ∧ limit < elapsed answer.iterations

theorem Job.EndsWith.conforms {job : Job α n} {elapsed : Nat → α} {steps : List (Step α n)}
    {final : Step α n} {stop : Stop} (hends : job.EndsWith elapsed steps final stop) :
    (Answer.ofResult (job.resultAt steps final stop)).Conforms job.settings elapsed
      (steps.map (·.record)) final.record := by
  have hrecord (i : Nat) (hi : i < (steps ++ [final]).length) :=
    record_of_step (hends.follows i hi)
  have hstatus : (job.resultAt steps final stop).status =
      if job.settings.accepts final.record then .optimal else .iterationLimit := by
    rw [← Settings.status_stop? final.record (elapsed (steps.length + 1)), hends.stop_eq]
    rfl
  constructor
  case columns_eq => simp [Answer.ofResult, resultAt]
  case iterations_pos => exact Nat.succ_pos _
  case iterations_le => exact hends.room
  case lengths_eq =>
    intro k hk
    rw [Columns.length_of_mem_lengths hk]
    simp [Answer.ofResult, resultAt]
  case iteration_eq =>
    apply List.ext_getElem
    · simp [Answer.ofResult, resultAt, Columns.ofHistory]
    · intro i hi hi'
      have hi'' : i < (steps ++ [final]).length := by
        simpa [Answer.ofResult, resultAt, Columns.ofHistory] using hi
      simp only [Answer.ofResult, resultAt, Columns.ofHistory, List.getElem_map,
        (hrecord i hi'').1, List.getElem_range']
      omega
  case rho_eq =>
    apply List.eq_replicate_iff.mpr
    constructor
    · simp [Answer.ofResult, resultAt, Columns.ofHistory]
    · intro rho hrho
      obtain ⟨r, hr, rfl⟩ := List.mem_map.mp hrho
      obtain ⟨step, hstep, rfl⟩ := List.mem_map.mp hr
      obtain ⟨i, hi, rfl⟩ := List.mem_iff_getElem.mp hstep
      exact (hrecord i hi).2
  case objective_eq => rfl
  case misses =>
    intro r hr
    obtain ⟨step, hstep, rfl⟩ := List.mem_map.mp hr
    obtain ⟨i, hi, rfl⟩ := List.mem_iff_getElem.mp hstep
    obtain ⟨hrejects, _⟩ := Settings.stop?_eq_none_iff.mp (hends.passes.goes_on i hi)
    rw [← Settings.accepts_iff_meets, hrejects]
    exact Bool.false_ne_true
  case status_iff =>
    change (job.resultAt steps final stop).status = _ ↔ _
    rw [← Settings.accepts_iff_meets, hstatus]
    cases job.settings.accepts final.record with
    | true => simp
    | false => simp
  case otherwise =>
    intro hlimit
    change (job.resultAt steps final stop).status ≠ _ at hlimit
    have hrejects : job.settings.accepts final.record = false := by
      rw [hstatus] at hlimit
      simpa using hlimit
    cases hlate : job.settings.timedOut (elapsed (steps.length + 1)) with
    | true =>
        obtain ⟨limit, hsome, hover⟩ := (Option.any_eq_true _ _).mp hlate
        exact .inr ⟨limit, hsome, of_decide_eq_true hover⟩
    | false => exact .inl (hends.full (Settings.stop?_eq_none_iff.mpr ⟨hrejects, hlate⟩))

/-- Watchers that store what they receive and have no other effects. -/
def Watchers.storing (α : Type) : Watchers (StateM (History Nat α)) α := storingIn Id α

omit [Scalar α] in
theorem Watchers.storing_see (settings : Settings α) (r : Record Nat α)
    (seen : History Nat α) : ((storing α).see settings r).run seen = ((), seen ++ [r]) := by
  have hannounce : (storing α).announce settings r.iteration = pure () := by
    rw [announce]
    split
    · rfl
    · rfl
  rw [see, hannounce, pure_bind, receive, sinks]
  split
  · rfl
  · rfl

omit [Scalar α] in
theorem Watchers.storing_forM (settings : Settings α) (h seen : History Nat α) :
    (h.forM ((storing α).see settings)).run seen = ((), seen ++ h) := by
  induction h generalizing seen with
  | nil => simp; rfl
  | cons r h ih =>
      rw [List.forM_eq_forM, List.forM_cons, StateT.run_bind, storing_see]
      change (h.forM ((storing α).see settings)).run (seen ++ [r]) = _
      rw [ih, List.append_assoc, List.singleton_append]

/-- A run that stores its records has the trace of the job. -/
theorem Job.ofKept_storing (job : Job α n) (elapsed : Nat → α) :
    let stored := (job.watchBy (.storing α) fun i => pure (elapsed i)).run []
    Trace.ofKept stored.2 stored.1 = job.trace elapsed := by
  intro stored
  by_cases hcount : job.settings.maxIter < countLimit
  · have hstored : stored = ((job.trace elapsed).ending.map fun (stop, last) =>
        (Kept.initial job.start).after (job.trace elapsed).records stop last,
        (job.trace elapsed).records) := by
      have hannounce (i : Nat) :
          (Watchers.storing α).announce job.settings i = pure () := by
        rw [Watchers.announce]
        split <;> rfl
      change (job.watchBy (.storing α) fun i => pure (elapsed i)).run [] = _
      rw [job.watchBy_eq (.storing α) elapsed hcount, Watchers.course]
      simp only [hannounce, bind_assoc]
      rw [StateT.run_bind, Watchers.storing_forM]
      cases (job.trace elapsed).ending <;> rfl
    rw [hstored, Trace.ofKept]
    generalize job.trace elapsed = trace
    obtain ⟨records, ending⟩ := trace
    cases ending with
    | error cause => rfl
    | ok ending => simp [Except.map, Kept.after, Kept.initial, Stop.eq_of_iterationLimit]
  · have hstored : stored = (.error .tooLarge, []) := by
      change (job.watchBy (.storing α) fun i => pure (elapsed i)).run [] = _
      rw [watchBy, if_neg hcount]
      rfl
    rw [hstored, job.trace_of_countLimit elapsed hcount]
    rfl

/-- A run is the same under all eyes. What is watched is the answer of the job after
effects of some kind, whether or not there is a sink, a table or a bar; and if the
job has an answer, these effects are those of its records, handed out in their
order. The answer has as many records as iterations, numbered from one on and with
the step size of the run; the first record that passes the test is the last one,
and without one the limit is reached or the clock has run out. -/
theorem run_watched {program : Program α n} {penalty : Penalty α n}
    {settings : Settings α} {start : Vec α n} {job : Job α n} (hvalid : settings.Valid)
    (hjob : Job.ofProgram? program penalty settings start = some job)
    (elapsed : Nat → α) :
    (∀ verbose progress : Value,
      Job.ofProgram? program penalty (settings.showing verbose progress) start =
        some (job.showing verbose progress) ∧
      ∀ (m : Type → Type) [Monad m] [LawfulMonad m] (watchers : Watchers m α),
        ∃ shown : m Unit, (job.showing verbose progress).watch watchers elapsed = (do
          shown
          return (job.result elapsed).map .ofResult)) ∧
    ∀ result, job.result elapsed = .ok result → ∃ rows final,
      (Answer.ofResult result).Conforms settings elapsed rows final ∧
      ∀ verbose progress : Value,
        (∀ (m : Type → Type) [Monad m] [LawfulMonad m] (watchers : Watchers m α),
          (job.showing verbose progress).watch watchers elapsed = (do
            (rows ++ [final]).forM fun r => do
              watchers.announce (settings.showing verbose progress) r.iteration
              watchers.receive (settings.showing verbose progress) r
            return .ok (.ofResult result))) ∧
        ((job.showing verbose progress).watch (.storing α) elapsed).run [] =
          (.ok (.ofResult result), rows ++ [final]) := by
  have hsettings : job.settings = settings := by
    obtain ⟨system, _, rfl⟩ := Job.ofProgram?_eq_some hjob
    rfl
  subst hsettings
  obtain ⟨hiter, _⟩ := Settings.valid_iff.mp hvalid
  constructor
  · intro verbose progress
    refine ⟨Job.ofProgram?_settings hjob rfl, ?_⟩
    intro m _ _ watchers
    by_cases hcount : job.settings.maxIter < Job.countLimit
    · refine ⟨watchers.course (job.showing verbose progress).settings 0
        ((job.showing verbose progress).trace elapsed), ?_⟩
      rw [(job.showing verbose progress).watch_eq watchers elapsed hiter hcount,
        Job.result_showing]
    · refine ⟨pure (), ?_⟩
      have hwatch : (job.showing verbose progress).watch watchers elapsed =
          pure (.error .tooLarge) := by
        have hmax : ¬ (job.showing verbose progress).settings.maxIter < Job.countLimit := hcount
        rw [Job.watch, Job.watchBy, if_neg hmax, pure_bind]
        rfl
      rw [hwatch, Job.result, job.trace_of_countLimit elapsed hcount]
      simp [Trace.result, Except.map, bind, Except.bind]
  · intro result hresult
    obtain ⟨hcount, steps, final, stop, hends, rfl⟩ :=
      (Job.result_eq_ok_iff hiter).mp hresult
    refine ⟨_, _, hends.conforms, ?_⟩
    intro verbose progress
    have hwatch (m : Type → Type) [Monad m] [LawfulMonad m] (watchers : Watchers m α) :
        (job.showing verbose progress).watch watchers elapsed = (do
          (steps.map (·.record) ++ [final.record]).forM
            (watchers.see (job.settings.showing verbose progress))
          return .ok (.ofResult (job.resultAt steps final stop))) := by
      have hsettings : (job.showing verbose progress).settings =
          job.settings.showing verbose progress := rfl
      rw [(job.showing verbose progress).watch_eq watchers elapsed hiter hcount,
        Job.result_showing, hresult, Job.trace_showing, hends.trace_eq hcount, hsettings]
      simp [Watchers.course, Except.map]
    refine ⟨hwatch, ?_⟩
    rw [hwatch, StateT.run_bind, Watchers.storing_forM]
    rfl

/-- The run on two weights, with a sink that stores: it receives the one record of
the answer. -/
theorem run_watched_pair :
    ∃ job : Job ℝ 2, job.IsPair ∧ ∃ result r, job.result 0 = .ok result ∧
      result.status = .optimal ∧ result.iterations = 1 ∧ pairSettings.Meets r ∧
      ((job.showing (.bool true) (.bool true)).watch (.storing ℝ) 0).run [] =
        (.ok (.ofResult result), [r]) := by
  obtain ⟨job, hjob⟩ := exists_pairJob
  obtain ⟨last, hends⟩ := hjob.endsWith 0
  have hprepared := hjob.accepted.prepared
  obtain ⟨hiter, _⟩ := Settings.accepted_iff.mp hjob.accepted.settings
  have hresult := (Job.result_eq_ok_iff hiter).mpr
    ⟨hjob.maxIter_lt, [], last, .accepted, hends, rfl⟩
  obtain ⟨_, hanswers⟩ := run_watched hjob.accepted.settings hprepared 0
  obtain ⟨rows, final, hconforms, hwatched⟩ := hanswers _ hresult
  have hrows : rows = [] := by
    have hlength := hconforms.lengths_eq _ (List.mem_cons_self)
    rw [hconforms.columns_eq] at hlength
    simpa [Columns.ofHistory, Answer.ofResult, Job.resultAt] using hlength
  obtain ⟨_, hstored⟩ := hwatched (.bool true) (.bool true)
  rw [hrows, List.nil_append] at hstored
  refine ⟨job, hjob, _, final, hresult, rfl, rfl, ?_, hstored⟩
  rw [← hjob.settings_eq]
  exact hconforms.status_iff.mp rfl

end SparseWeights
