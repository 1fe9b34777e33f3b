import SparseWeights.Admm.Run

/-!
A run that is watched. Every iteration makes a record, which goes into the columns of the history and to
whoever watches, in front of the question whether to stop. A table watches if the settings are verbose, a
bar if they ask for progress, and a sink if one is given. Watching and looking at the clock may have
effects of any kind, so the run is written over a monad. What it returns is put together from the last
values of its variables.
-/

namespace SparseWeights

variable {α : Type} [Scalar α] {n : Nat}

/-- A history as a list for every measurement. -/
structure Columns (α : Type) where
  iteration : List Nat
  primal : List α
  dual : List α
  gap : List α
  primalResidual : List α
  dualResidual : List α
  rho : List α

namespace Columns

variable {α : Type}

def empty : Columns α := ⟨[], [], [], [], [], [], []⟩

def push (c : Columns α) (r : Record Nat α) : Columns α where
  iteration := c.iteration ++ [r.iteration]
  primal := c.primal ++ [r.primal]
  dual := c.dual ++ [r.dual]
  gap := c.gap ++ [r.gap]
  primalResidual := c.primalResidual ++ [r.primalResidual]
  dualResidual := c.dualResidual ++ [r.dualResidual]
  rho := c.rho ++ [r.rho]

def lengths (c : Columns α) : List Nat :=
  [c.iteration.length, c.primal.length, c.dual.length, c.gap.length, c.primalResidual.length,
    c.dualResidual.length, c.rho.length]

end Columns

abbrev Sink (m : Type → Type) (α : Type) := Record Nat α → m Unit

structure Watchers (m : Type → Type) (α : Type) where
  /-- Is told the number of every iteration in front of it. -/
  bar : Nat → m Unit
  table : Sink m α
  sink : Option (Sink m α)

namespace Watchers

variable {m : Type → Type} [Monad m] {α : Type}

@[specialize] def announce (watchers : Watchers m α) (settings : Settings α) (i : Nat) : m Unit :=
  if settings.progress.isTruthy then watchers.bar i else pure ()

def sinks (watchers : Watchers m α) (settings : Settings α) : List (Sink m α) :=
  (if settings.verbose.isTruthy then [watchers.table] else []) ++ watchers.sink.toList

@[specialize] def receive (watchers : Watchers m α) (settings : Settings α) (r : Record Nat α) :
    m Unit :=
  (watchers.sinks settings).forM fun sink => sink r

/-- Watchers of which only the sink does anything: it stores what it receives. -/
def storingIn (m : Type → Type) [Monad m] (α : Type) : Watchers (StateT (History Nat α) m) α where
  bar := fun _ => pure ()
  table := fun _ => pure ()
  sink := some fun r => modify fun seen => seen ++ [r]

end Watchers

/-- Whether the time is up after an iteration. Without a limit nobody looks at the clock. -/
@[specialize] def Settings.isLate {m : Type → Type} [Monad m] (settings : Settings α)
    (clock : Nat → m α) (i : Nat) : m Bool :=
  match settings.timeLimit with
  | none => pure false
  | some limit => (fun elapsed => decide (limit < elapsed)) <$> clock i

/-- The variables of a watched run. -/
structure Kept (α : Type) (n : Nat) where
  state : State α n
  stop : Stop
  iterations : Nat
  objective : α
  columns : Columns α

namespace Kept

def initial (start : Vec α n) : Kept α n :=
  ⟨.start start, .iterationLimit, 0, 0 / 0, .empty⟩

def keep (kept : Kept α n) (step : Step α n) : Kept α n where
  state := step.next
  stop := kept.stop
  iterations := step.record.iteration
  objective := step.record.primal
  columns := kept.columns.push step.record

end Kept

structure Answer (α : Type) (n : Nat) where
  w : Vec α n
  penalty : α
  alpha : Vec α n
  beta : α
  objective : α
  status : Status
  iterations : Nat
  rho : α
  columns : Columns α

def Trace.ofKept (records : History Nat α) (outcome : Except Fault (Kept α n)) : Trace α n :=
  ⟨records, outcome.map fun kept => (kept.stop, kept.state)⟩

namespace Job

variable {m : Type → Type} [Monad m]

/-- Runs `fuel` more iterations at most, `done` of which have been run. -/
@[specialize] def watchFrom (job : Job α n) (watchers : Watchers m α) (clock : Nat → m α) :
    Nat → Nat → Kept α n → m (Except Fault (Kept α n))
  | 0, _, kept => return .ok kept
  | fuel + 1, done, kept => do
    watchers.announce job.settings (done + 1)
    match kept.state.advance job.program job.penalty job.system (done + 1) with
    | .error cause => return .error cause
    | .ok step =>
      watchers.receive job.settings step.record
      let kept := kept.keep step
      if job.settings.accepts step.record then return .ok { kept with stop := .accepted }
      else if ← job.settings.isLate clock (done + 1) then return .ok { kept with stop := .timeLimit }
      else watchFrom job watchers clock fuel (done + 1) kept

@[specialize] def watchBy (job : Job α n) (watchers : Watchers m α) (clock : Nat → m α) :
    m (Except Fault (Kept α n)) :=
  if job.settings.maxIter < countLimit then
    watchFrom job watchers clock job.settings.maxIter 0 (.initial job.start)
  else return .error .tooLarge

/-- Runs a job under the eyes of its watchers, with the given readings of a clock. -/
@[specialize] def watch (job : Job α n) (watchers : Watchers m α) (elapsed : Nat → α) :
    m (Except Fault (Answer α n)) := do
  let outcome ← job.watchBy watchers fun i => pure (elapsed i)
  return outcome.map fun kept => {
    w := kept.state.v
    penalty := job.penalty.value kept.state.v
    alpha := kept.state.alpha
    beta := kept.state.beta
    objective := kept.objective
    status := kept.stop.status
    iterations := kept.iterations
    rho := job.system.rho
    columns := kept.columns }

end Job

end SparseWeights
