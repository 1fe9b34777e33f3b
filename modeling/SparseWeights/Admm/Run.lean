import SparseWeights.Admm.Iteration
import SparseWeights.Admm.Settings
import SparseWeights.Diagnostics.Event

/-!
A run of the solver: iterations until one passes the test, the clock passes the time limit, or the
limit on iterations is reached. The test asks for a small gap and for small residuals. A run is a
function of its inputs and of the readings of a clock, one after each iteration, of which only those
matter that a time limit is compared with.
-/

namespace SparseWeights

variable {α : Type} [Scalar α] {n : Nat}

@[specialize] def Settings.accepts (settings : Settings α) (r : Record Nat α) : Bool :=
  decide (r.gap < settings.tolRelGap) &&
    decide (Scalar.larger r.primalResidual r.dualResidual < settings.tolInfeas)

@[specialize] def Settings.timedOut (settings : Settings α) (elapsed : α) : Bool :=
  settings.timeLimit.any fun limit => decide (limit < elapsed)

inductive Stop where
  | accepted
  | timeLimit
  | iterationLimit
  deriving DecidableEq, Repr

def Stop.status : Stop → Status
  | accepted => .optimal
  | timeLimit | iterationLimit => .iterationLimit

@[specialize] def Settings.stop? (settings : Settings α) (r : Record Nat α) (elapsed : α) :
    Option Stop :=
  if settings.accepts r then some .accepted
  else if settings.timedOut elapsed then some .timeLimit
  else none

/-- The iterations of a run: their records, and the last state with the reason to stop, or the fault
that ended them. -/
structure Trace (α : Type) (n : Nat) where
  records : History Nat α
  ending : Except Fault (Stop × State α n)

/-- Runs `fuel` more iterations at most; `done` of them have been run, with the records of `seen`, the
last one in front. -/
@[specialize] def iterate (program : Program α n) (penalty : Penalty α n) (system : WeightSystem α n)
    (settings : Settings α) (elapsed : Nat → α) :
    Nat → Nat → State α n → History Nat α → Trace α n
  | 0, _, s, seen => ⟨seen.reverse, .ok (.iterationLimit, s)⟩
  | fuel + 1, done, s, seen =>
    match s.advance program penalty system (done + 1) with
    | .error cause => ⟨seen.reverse, .error cause⟩
    | .ok step =>
      match settings.stop? step.record (elapsed (done + 1)) with
      | some stop => ⟨(step.record :: seen).reverse, .ok (stop, step.next)⟩
      | none => iterate program penalty system settings elapsed fuel (done + 1) step.next
          (step.record :: seen)

structure Result (α : Type) (n : Nat) where
  w : Vec α n
  /-- The value of the penalty at the weights. -/
  penalty : α
  alpha : Vec α n
  beta : α
  /-- The primal objective of the last iteration. -/
  objective : α
  status : Status
  iterations : Nat
  rho : α
  history : History Nat α

def Trace.result (trace : Trace α n) (penalty : Penalty α n) (rho : α) : Except Fault (Result α n) := do
  let (stop, last) ← trace.ending
  return {
    w := last.v
    penalty := penalty.value last.v
    alpha := last.alpha
    beta := last.beta
    objective := trace.records.getLast?.elim (0 / 0) (·.primal)
    status := stop.status
    iterations := trace.records.length
    rho
    history := trace.records }

/-- The step size of a run: the one asked for, or that of the problem. -/
@[specialize] def Settings.rhoFor (settings : Settings α) (program : Program α n) : α :=
  settings.rho.getD program.objective.defaultRho

/-- Everything a run needs, ready for the first iteration. -/
structure Job (α : Type) [Scalar α] (n : Nat) where
  program : Program α n
  penalty : Penalty α n
  settings : Settings α
  system : WeightSystem α n
  start : Vec α n

namespace Job

/-- The job of solving a program; `none` if there is no factor for the weight update. -/
@[specialize] def ofProgram? (program : Program α n) (penalty : Penalty α n) (settings : Settings α)
    (start : Vec α n) : Option (Job α n) :=
  (WeightSystem.ofMatrix? program.quadratic (settings.rhoFor program)).map fun system =>
    { program, penalty, settings, system, start }

/-- As many iterations, or more, cannot be counted. -/
def countLimit : Nat := Decimal.pow2 63

/-- All iterations of a job. A limit that cannot be counted to is a fault, found in front of the first. -/
@[specialize] def trace (job : Job α n) (elapsed : Nat → α) : Trace α n :=
  if job.settings.maxIter < countLimit then
    iterate job.program job.penalty job.system job.settings elapsed job.settings.maxIter 0
      (.start job.start) []
  else ⟨[], .error .tooLarge⟩

@[specialize] def result (job : Job α n) (elapsed : Nat → α) : Except Fault (Result α n) :=
  (job.trace elapsed).result job.penalty job.system.rho

end Job

def evenWeights (n : Nat) : Vec α n := Vector.replicate n (1 / Scalar.ofNat n)

end SparseWeights
