import SparseWeights.Proofs.Admm.Settings
import SparseWeights.Proofs.Admm.Trajectory

/-!
How a run that returns went. It has a last iteration, in front of which the rule
never said to stop, and at which it did or the limit was reached. The steps
determine the answer, and an answer has such steps, so what is said of the one
is said of the other. The scalars are arbitrary.
-/

namespace SparseWeights

variable {α : Type} [Scalar α] {n : Nat}

namespace Job

/-- The run stops at `final`, which comes after `steps`, for the given reason. -/
structure EndsWith (job : Job α n) (elapsed : Nat → α) (steps : List (Step α n))
    (final : Step α n) (stop : Stop) : Prop where
  passes : job.Passes elapsed steps
  step : job.stepAfter steps.length = .ok final
  stop_eq : (job.settings.stop? final.record (elapsed (steps.length + 1))).getD
    .iterationLimit = stop
  room : steps.length < job.settings.maxIter
  full : job.settings.stop? final.record (elapsed (steps.length + 1)) = none →
    steps.length + 1 = job.settings.maxIter

theorem EndsWith.of_stop {job : Job α n} {elapsed : Nat → α} {steps : List (Step α n)}
    {final : Step α n} {stop : Stop} (hpasses : job.Passes elapsed steps)
    (hroom : steps.length < job.settings.maxIter)
    (hfinal : job.stepAfter steps.length = .ok final)
    (hstop : job.settings.stop? final.record (elapsed (steps.length + 1)) = some stop) :
    job.EndsWith elapsed steps final stop where
  passes := hpasses
  step := hfinal
  stop_eq := by rw [hstop, Option.getD_some]
  room := hroom
  full := by
    intro hnone
    rw [hstop] at hnone
    cases hnone

/-- The answer of a run that stops at `final`. -/
def resultAt (job : Job α n) (steps : List (Step α n)) (final : Step α n) (stop : Stop) :
    Result α n where
  w := final.next.v
  penalty := job.penalty.value final.next.v
  alpha := final.next.alpha
  beta := final.next.beta
  objective := final.record.primal
  status := stop.status
  iterations := steps.length + 1
  rho := job.system.rho
  history := (steps ++ [final]).map (·.record)

/-- Without a stop a loop goes on to its limit. -/
theorem loop_of_passes {job : Job α n} {elapsed : Nat → α} {steps : List (Step α n)}
    {last : State α n} (hpasses : job.Passes elapsed steps)
    (hlast : job.stateAfter steps.length = .ok last) :
    job.loop elapsed steps.length =
      ⟨steps.map (·.record), .ok (.iterationLimit, last)⟩ := by
  have houtcome := job.loop_outcome elapsed steps.length
  generalize job.loop elapsed steps.length = trace at houtcome
  cases houtcome with
  | exhausted steps' last' hpasses' hlength' hlast' =>
      obtain rfl := hpasses.eq_of_length hpasses' hlength'.symm
      obtain rfl := Except.ok.inj (hlast.symm.trans hlast')
      rfl
  | stopped steps' final stop hpasses' hlength' hfinal hstop =>
      have hle := hpasses.length_le hfinal hstop
      omega
  | failed steps' cause hpasses' hlength' hcause =>
      rw [hpasses.step _ hlength'] at hcause
      cases hcause

theorem EndsWith.trace_eq {job : Job α n} {elapsed : Nat → α} {steps : List (Step α n)}
    {final : Step α n} {stop : Stop} (hends : job.EndsWith elapsed steps final stop)
    (hcount : job.settings.maxIter < countLimit) :
    job.trace elapsed =
      ⟨(steps ++ [final]).map (·.record), .ok (stop, final.next)⟩ := by
  cases hstop : job.settings.stop? final.record (elapsed (steps.length + 1)) with
  | some reason =>
      have hreason := hends.stop_eq
      rw [hstop, Option.getD_some] at hreason
      rw [← hreason]
      exact trace_of_stop hcount hends.passes hends.room hends.step hstop
  | none =>
      have hreason := hends.stop_eq
      rw [hstop, Option.getD_none] at hreason
      have hall := hends.passes.snoc hends.step hstop
      have hloop := loop_of_passes hall (by simpa using hall.stateAfter)
      rw [trace_of_count hcount, ← hends.full hstop, ← hreason]
      simpa using hloop

/-- A run that ends without a fault has a last iteration. -/
theorem exists_endsWith {job : Job α n} {elapsed : Nat → α} {stop : Stop}
    {last : State α n} (hiter : 0 < job.settings.maxIter)
    (hending : (job.trace elapsed).ending = .ok (stop, last)) :
    job.settings.maxIter < countLimit ∧
      ∃ steps final, job.EndsWith elapsed steps final stop ∧ last = final.next := by
  by_cases hcount : job.settings.maxIter < countLimit
  · refine ⟨hcount, ?_⟩
    have houtcome := job.trace_outcome elapsed hcount
    generalize job.trace elapsed = trace at houtcome hending
    cases houtcome with
    | exhausted steps last' hpasses hlength hlast =>
        obtain ⟨rfl, rfl⟩ := Prod.mk.inj (Except.ok.inj hending)
        obtain ⟨front, final, rfl⟩ : ∃ front final, steps = front ++ [final] := by
          have hne : steps ≠ [] := List.ne_nil_of_length_pos (by omega)
          exact ⟨steps.dropLast, steps.getLast hne, (List.dropLast_concat_getLast hne).symm⟩
        have hfront : front.length < (front ++ [final]).length := by simp
        have hnone := hpasses.goes_on front.length hfront
        have hstep := hpasses.step front.length hfront
        rw [List.getElem_concat_length rfl] at hnone hstep
        have hlength' : front.length + 1 = job.settings.maxIter := by simpa using hlength
        refine ⟨front, final, ⟨⟨?_, ?_⟩, hstep, ?_, by omega, fun _ => hlength'⟩, ?_⟩
        · intro i hi
          rw [hpasses.step i (by simp; omega), List.getElem_append_left hi]
        · intro i hi
          rw [← hpasses.goes_on i (by simp; omega), List.getElem_append_left hi]
        · rw [hnone, Option.getD_none]
        · rw [← hlength', hpasses.stateAfter] at hlast
          exact (Except.ok.inj hlast).symm
    | stopped steps final stop' hpasses hlength hfinal hstop =>
        obtain ⟨rfl, rfl⟩ := Prod.mk.inj (Except.ok.inj hending)
        exact ⟨steps, final, .of_stop hpasses hlength hfinal hstop, rfl⟩
    | failed steps cause => cases hending
  · rw [job.trace_of_countLimit elapsed hcount] at hending
    cases hending

/-- The answers of a job are those of the steps with which it ends. -/
theorem result_eq_ok_iff {job : Job α n} {elapsed : Nat → α} {result : Result α n}
    (hiter : 0 < job.settings.maxIter) :
    job.result elapsed = .ok result ↔
      job.settings.maxIter < countLimit ∧ ∃ steps final stop,
        job.EndsWith elapsed steps final stop ∧ result = job.resultAt steps final stop := by
  constructor
  · intro hresult
    cases hending : (job.trace elapsed).ending with
    | error cause =>
        rw [Job.result, Trace.result, hending] at hresult
        cases hresult
    | ok ending =>
        obtain ⟨hcount, steps, final, hends, hlast⟩ := exists_endsWith hiter hending
        refine ⟨hcount, steps, final, ending.1, hends, ?_⟩
        rw [Job.result, hends.trace_eq hcount] at hresult
        rw [← Except.ok.inj hresult, resultAt]
        simp
  · rintro ⟨hcount, steps, final, stop, hends, rfl⟩
    rw [Job.result, hends.trace_eq hcount]
    simp [Trace.result, resultAt, bind, Except.bind, pure, Except.pure]

end Job

end SparseWeights
