import SparseWeights.Data.Number
import SparseWeights.Diagnostics.Record
import SparseWeights.Error
import SparseWeights.Text.Lower

/-!
Sending records and summaries to a tracking service. The service may be absent, and may fail when a
session begins. A tracker holds on to the service as soon as it has found it, before the session has
begun; what it is given while it holds no service is dropped. A tracker that is finished may start
again.
-/

namespace SparseWeights

inductive ServiceCall where
  | init (project name config : Value)
  | log (step : Int) (measurements : Fields)
  | summary (key : String) (value : Value)
  | finish

/-- How a tracking service answers when a session is to begin. -/
inductive Service where
  | absent
  | failing
  | ready
  deriving DecidableEq, Repr

structure Tracker where
  project : Value
  name : Value
  holding : Bool

namespace Tracker

def new (project name : Value) : Tracker := ⟨project, name, false⟩

/-- What a step leads to: the tracker after it, the calls that the service received, and the error that
ended the step. -/
structure Outcome where
  tracker : Tracker
  calls : List ServiceCall
  error : Option Error

def start (t : Tracker) (service : Service) (config : Value) : Outcome :=
  let held := { t with holding := true }
  let call := ServiceCall.init t.project t.name config
  match service with
  | .absent => ⟨t, [], some .trackerMissing⟩
  | .failing => ⟨held, [call], some (.fault .serviceFailed)⟩
  | .ready => ⟨held, [call], none⟩

def measurementsOf (r : Record Value Float) : Fields :=
  (r.toFields.drop 1).map fun field => ("admm/" ++ field.1, field.2)

def record (t : Tracker) (r : Record Value Float) : Outcome :=
  if t.holding then
    match r.iteration.toInt with
    | .ok step => ⟨t, [.log step (measurementsOf r)], none⟩
    | .error cause => ⟨t, [], some (.fault cause)⟩
  else ⟨t, [], none⟩

def summary (t : Tracker) (summary : Value) : Outcome :=
  if t.holding then
    match summary with
    | .record fields =>
      ⟨t, fields.map fun field => .summary ("summary/" ++ field.1) field.2, none⟩
    | _ => ⟨t, [], some (.fault .noMember)⟩
  else ⟨t, [], none⟩

def finish (t : Tracker) : Outcome :=
  if t.holding then ⟨{ t with holding := false }, [.finish], none⟩ else ⟨t, [], none⟩

def affirmations : List String := ["1", "true", "yes"]

/-- The names of the project and of the run when none are given. -/
def defaultProject : String := "sl1admm"

def defaultName : String := "sl1admm-run"

/-- Whether an environment asks for tracking, and for which project. -/
def requested? (environment : Fields) : Except Fault (Option Value) :=
  let project := (environment.get? "WANDB_PROJECT").getD .null
  match (environment.get? "WANDB_ENABLED").getD (.text "") with
  | .text enabled =>
    if project.isTruthy then .ok (some project)
    else if affirmations.contains (Text.lower enabled) then .ok (some (.text defaultProject))
    else .ok none
  | _ => .error .noMember

/-- The tracker that an environment asks for. Without the service there is none, which is the second
answer. -/
def ofEnvironment (environment : Fields) (service : Service) (name : Value) :
    Except Fault (Option Tracker × Bool) := do
  match ← requested? environment with
  | none => return (none, false)
  | some project =>
    if service = .absent then return (none, true) else return (some (new project name), false)

end Tracker

end SparseWeights
