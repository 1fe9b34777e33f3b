import SparseWeights.Admm.Run
import SparseWeights.Penalty.Spec
import SparseWeights.Program.Build

/-!
Solving a problem from data of any form. All arguments are read and checked before the first iteration,
in the order program, penalty, settings, first weights; the report of a request that is refused holds no
record. After that only the arithmetic can fail.
-/

namespace SparseWeights

abbrev SizedResult := (n : Nat) × Result Float n

/-- What a request came to: what was reported on the way, the records that were handed out, and the
result or the error. -/
structure Report where
  events : List Event
  seen : History Nat Float
  result : Except Error SizedResult

namespace Report

def refused (e : Error) : Report := ⟨[], [], .error e⟩

end Report

abbrev Clock := Nat → Float

namespace Job

variable {n : Nat}

def opening (job : Job Float n) : List Event :=
  [.started job.program.objective.name job.penalty.kind n job.system.rho job.settings.maxIter]

def table (job : Job Float n) (records : History Nat Float) : List Event :=
  if job.settings.verbose.isTruthy then
    let title := "ADMM (" ++ job.program.objective.name ++ ", " ++ job.penalty.kind.name ++ ")"
    (Table.linesFor title (records.map fun r => r.map Int.ofNat id)).map .table
  else []

/-- The events behind the last iteration. -/
def closing (job : Job Float n) (records : History Nat Float) (stop : Stop) : List Event :=
  let count := records.length
  let late := match stop, job.settings.timeLimit with
    | .timeLimit, some limit => [.timeLimit limit count]
    | _, _ => []
  late ++ [.finished stop.status count (records.getLast?.elim (0 / 0) (·.primal))]

def report (job : Job Float n) (trace : Trace Float n) : Report where
  events := job.opening ++ job.table trace.records ++
    match trace.ending with
    | .ok (stop, _) => job.closing trace.records stop
    | .error _ => []
  seen := trace.records
  result := do
    let result ← trace.result job.penalty job.system.rho
    return ⟨n, result⟩

end Job

abbrev SizedJob := (n : Nat) × Job Float n

def SizedJob.run (job : SizedJob) (clock : Clock) : Report := job.2.report (job.2.trace clock)

namespace Solve

/-- The first weights: those that are given, or even ones. -/
def startOf (n : Nat) (start : Value) : Except Error (Vec Float n) :=
  match start with
  | .null => if n = 0 then .error (.fault .divisionByZero) else .ok (evenWeights n)
  | start => do
    let t ← Tensor.ofValue start
    match t.vector? with
    | some ⟨m, w⟩ =>
      if h : m = n then
        if Vec.allFinite w then .ok (w.cast h) else .error (.invalid (.notFinite "init_w"))
      else .error (.invalid (.startShape [m] n))
    | none => .error (.invalid (.startShape t.shape n))

def jobOf (p : Program.Sized Float) (spec : PenaltySpec Float) (settings : Settings Float)
    (start : Value) : Except Error SizedJob := do
  let ⟨n, program⟩ := p
  let penalty ← spec.fit n
  let start ← startOf n start
  match Job.ofProgram? program penalty settings start with
  | some job => .ok ⟨n, job⟩
  | none => .error (.singular (.system (settings.rhoFor program)))

structure Request where
  kind : Value
  lam : Value

def Request.spec (r : Request) (n : Nat) : Except Error (PenaltySpec Float) := do
  let kind ← PenaltyKind.ofValue r.kind
  PenaltySpec.ofValues kind r.lam (.int n)

/-- The job of solving a program, which may itself be refused, as may be the settings. -/
def job (p : Except Error (Program.Sized Float)) (request : Request)
    (settings : Except Error (Settings Float)) (start : Value) : Except Error SizedJob := do
  let p ← p
  let spec ← request.spec p.1
  jobOf p spec (← settings) start

def regression (X Y : Value) : Except Error (Program.Sized Float) :=
  Program.regression (Tensor.ofValue X) (Tensor.ofValue Y)

def symmetryTolerance : Float := 1e-10

def portfolio (Sigma mu phi : Value) : Except Error (Program.Sized Float) :=
  Program.portfolio (Tensor.ofValue Sigma) (Tensor.ofValue mu) phi.toFloat
    (.ok (some symmetryTolerance))

def isInOrder (a b : Value) : Bool := (a.atMost b).toOption.getD true

/-- Keys in order: texts by their characters, numbers by size. A single key needs no order. -/
def sortedKeys (keys : List Value) : Except Fault (List Value) :=
  let texts := keys.filterMap fun
    | .text s => some s
    | _ => none
  if texts.length = keys.length then
    .ok ((texts.mergeSort fun a b => decide (a ≤ b)).map .text)
  else if keys.all Value.isNumber then .ok (keys.mergeSort isInOrder)
  else if keys.length = 1 then .ok keys
  else .error .wrongType

/-- Whether two keys are the same: the same number, or written the same. -/
def isSameKey (a b : Value) : Bool := a.sameNumber b || a.literal == b.literal

/-- The keys without repetitions, of which the first ones stay; values that are made of values cannot be
keys. -/
def distinctKeys (keys : List Value) : Except Fault (List Value) :=
  keys.foldlM (fun seen key =>
    match key with
    | .list _ | .record _ => .error .wrongType
    | key => .ok (if seen.any (isSameKey key) then seen else seen ++ [key])) []

def keysOf : Value → Except Fault (List Value)
  | .record fields => .ok (fields.map fun field => .text field.1)
  | .list items => distinctKeys items
  | .text s => distinctKeys (s.toList.map fun c => .text (String.ofList [c]))
  | _ => .error .wrongType

def holds (keys : List Value) (name : String) : Bool :=
  keys.any fun
    | .text s => s == name
    | _ => false

/-- The data under a name; only a record holds any. -/
def dataOf (problem : Value) (name : String) : Except Fault Value :=
  match problem with
  | .record fields => (Fields.get? fields name).elim (.error .noLabel) .ok
  | _ => .error .wrongType

def program (problem : Value) : Except Error (Program.Sized Float) := do
  let keys ← keysOf problem
  let data name := dataOf problem name
  if holds keys "X" && holds keys "Y" then regression (← data "X") (← data "Y")
  else if holds keys "Sigma" && holds keys "mu" && holds keys "phi" then
    portfolio (← data "Sigma") (← data "mu") (← data "phi")
  else
    let sorted ← sortedKeys keys
    .error (.invalid (.problemKeys sorted))

def reportOf (job : Except Error SizedJob) (clock : Clock) : Report :=
  match job with
  | .ok job => job.run clock
  | .error e => .refused e

end Solve

end SparseWeights
