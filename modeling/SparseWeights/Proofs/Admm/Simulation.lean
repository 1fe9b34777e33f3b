import SparseWeights.Proofs.Admm.Ending

/-!
One run read as another, which may be over other scalars. The reading is given
by what becomes of vectors and of numbers. If it commutes with every iteration
and the rule to stop does not see it, then it commutes with the loop and with the
answer.
-/

namespace SparseWeights

variable {α β : Type} {n : Nat} (vector : Vec α n → Vec β n) (number : α → β)

def State.map (s : State α n) : State β n := ⟨vector s.v, vector s.alpha, number s.beta⟩

def Step.map (step : Step α n) : Step β n :=
  ⟨vector step.w, step.next.map vector number, step.record.map id number⟩

def Trace.map (trace : Trace α n) : Trace β n :=
  ⟨trace.records.map (Record.map id number),
    trace.ending.map fun (stop, last) => (stop, last.map vector number)⟩

def Result.map (result : Result α n) : Result β n where
  w := vector result.w
  penalty := number result.penalty
  alpha := vector result.alpha
  beta := number result.beta
  objective := number result.objective
  status := result.status
  iterations := result.iterations
  rho := number result.rho
  history := result.history.map (Record.map id number)

variable [Scalar α] [Scalar β]

/-- The second job, with the second clock, is the first one as it is read. -/
structure Job.ReadsAs (job : Job α n) (elapsed : Nat → α) (job' : Job β n)
    (elapsed' : Nat → β) : Prop where
  advance : ∀ (s : State α n) (i : Nat),
    (s.map vector number).advance job'.program job'.penalty job'.system i =
      (s.advance job.program job.penalty job.system i).map (Step.map vector number)
  stop : ∀ (r : Record Nat α) (i : Nat),
    job'.settings.stop? (r.map id number) (elapsed' i) = job.settings.stop? r (elapsed i)
  maxIter : job'.settings.maxIter = job.settings.maxIter
  start : State.start job'.start = (State.start job.start).map vector number
  value : ∀ v, job'.penalty.value (vector v) = number (job.penalty.value v)
  rho : job'.system.rho = number job.system.rho

namespace Job.ReadsAs

variable {vector number} {job : Job α n} {elapsed : Nat → α} {job' : Job β n}
  {elapsed' : Nat → β} (hreads : job.ReadsAs vector number elapsed job' elapsed')

include hreads

theorem iterate_eq (fuel done : Nat) (s : State α n) (seen : History Nat α) :
    iterate job'.program job'.penalty job'.system job'.settings elapsed' fuel done
        (s.map vector number) (seen.map (Record.map id number)) =
      (iterate job.program job.penalty job.system job.settings elapsed fuel done s
        seen).map vector number := by
  induction fuel generalizing done s seen with
  | zero => simp [iterate, Trace.map, Except.map]
  | succ fuel ih =>
      rw [iterate, iterate, hreads.advance]
      cases s.advance job.program job.penalty job.system (done + 1) with
      | error cause => simp [Trace.map, Except.map]
      | ok step =>
          have hstop := hreads.stop step.record (done + 1)
          simp only [Except.map, Step.map, hstop]
          cases job.settings.stop? step.record (elapsed (done + 1)) with
          | some stop => simp [Trace.map, Except.map]
          | none => exact ih (done + 1) step.next (step.record :: seen)

theorem trace_eq : job'.trace elapsed' = (job.trace elapsed).map vector number := by
  simp only [trace, hreads.maxIter, hreads.start]
  split
  · exact hreads.iterate_eq job.settings.maxIter 0 (.start job.start) []
  · rfl

/-- The answers are the same as they are read. -/
theorem result_eq (hiter : 0 < job.settings.maxIter) :
    job'.result elapsed' = (job.result elapsed).map (Result.map vector number) := by
  rw [result, hreads.trace_eq, result]
  cases hending : (job.trace elapsed).ending with
  | error cause =>
      simp [Trace.result, Trace.map, hending, Except.map, bind, Except.bind]
  | ok ending =>
      -- With a record there is an objective, which an empty history leaves undefined.
      obtain ⟨hcount, steps, final, hends, _⟩ := exists_endsWith hiter hending
      rw [hends.trace_eq hcount]
      simp [Trace.result, Trace.map, Result.map, State.map, Record.map, Except.map,
        bind, Except.bind, pure, Except.pure, hreads.value, hreads.rho]

end Job.ReadsAs

end SparseWeights
