import SparseWeights.Data.Number
import SparseWeights.Data.Tensor
import SparseWeights.Error
import SparseWeights.Synthetic.Generator

/-!
Plans for synthetic data. The problem and the number of active weights are checked when a plan is made;
all else when data is drawn, and only what the draw needs.
-/

namespace SparseWeights.Synthetic

inductive ProblemKind where
  | regression
  | portfolio
  deriving DecidableEq, Repr

def ProblemKind.name : ProblemKind → String
  | regression => "regression"
  | portfolio => "portfolio"

def ProblemKind.ofValue (v : Value) : Except Error ProblemKind :=
  match v with
  | .text s =>
    if s = regression.name then .ok regression
    else if s = portfolio.name then .ok portfolio
    else .error (.rejected (.generatorProblem s))
  | .list _ | .record _ => .error (.fault .wrongType)
  | v => .error (.rejected (.generatorProblem v.display))

structure Plan where
  problem : ProblemKind
  /-- The number of observations or periods. -/
  n : Value
  k : Value
  active : Value
  /-- The deviation of the noise in a regression. -/
  sigma : Value
  /-- The deviation of the common factor of a portfolio. -/
  factorVol : Value
  seed : Value

namespace Plan

def isActiveCount (active k : Value) : Except Fault Bool := do
  if ← (Value.int 1).atMost active then active.atMost k else return false

/-- The plan of a configuration; one that counts as false asks for nothing. -/
def ofConfig (config : Value) : Except Error Plan := do
  let fields ← match config with
    | .record fields => pure fields
    | config => if config.isTruthy then .error (.fault .noMember) else pure []
  let get (name : String) (otherwise : Value) : Value := (Fields.get? fields name).getD otherwise
  let problem ← ProblemKind.ofValue (get "problem" (.text "regression"))
  let k := get "k" (.int 10)
  let active := get "n_active" (.int 3)
  if ← isActiveCount active k then
    return {
      problem, k, active
      n := get "n" (.int 200)
      sigma := get "sigma" (.float 0.1)
      factorVol := get "factor_vol" (.float 0.02)
      seed := get "seed" (.int 42) }
  else .error (.rejected .activeCount)

def toFields (p : Plan) : Fields := [
  ("problem", .text p.problem.name), ("n", p.n), ("k", p.k), ("n_active", p.active),
  ("sigma", p.sigma), ("factor_vol", p.factorVol), ("seed", p.seed)]

end Plan

def countOf : Value → Except Fault Nat
  | .int n => if n < 0 then .error .unreadable else .ok n.toNat
  | _ => .error .wrongType

/-- The number that a text inside a seed spells, in base sixteen or ten. -/
def seedText? (s : String) : Option Nat :=
  if s.startsWith "0x" then Decimal.readHex? s
  else if s.toList.head?.any Char.isDigit then (Decimal.readInt? s).map Int.toNat
  else none

mutual

/-- The parts of a seed inside a list. A record stands for its keys. -/
def seedPart : Value → Except Fault (List Nat)
  | .bool b => .ok [b.toNat]
  | .int n => if n < 0 then .error .unreadable else .ok [n.toNat]
  | .list items => seedParts items
  | .text s => (seedText? s).elim (.error .unreadable) fun n => .ok [n]
  | .record fields => fields.mapM fun field =>
    (seedText? field.1).elim (.error .unreadable) .ok
  | .null | .float _ | .moment _ => .error .wrongType

def seedParts : List Value → Except Fault (List Nat)
  | [] => .ok []
  | item :: rest => do return (← seedPart item) ++ (← seedParts rest)

end

/-- The parts of a seed, which is a whole number or a list of them, if there is one. -/
def seedOf : Value → Except Fault (Option (List Nat))
  | .null => .ok none
  | .text _ | .record _ => .error .wrongType
  | seed => some <$> seedPart seed

/-- The generator of a seed; without one it is the `nth` that is made so. -/
def Generator.start (g : Generator) (seed : Value) (nth : Nat) : Except Fault g.State :=
  (seedOf seed).map fun parts? => parts?.elim (g.unseeded nth) g.seeded

def spreadOf (v : Value) : Except Fault (Tensor Float) := do
  let spread ← Tensor.ofValue v
  match v with
  | .null | .text _ => .error .wrongType
  | _ => if spread.entries.any isNegative then .error .unreadable else return spread

/-- A deviation for each of `n` draws: one for all, or as many. -/
def spreadAlong (spread : Tensor Float) (n : Nat) : Except Fault (Vec Float n) :=
  match spread.asVec? n, spread.shape, spread.entries with
  | some v, _, _ => .ok v
  | none, [], [x] | none, [_], [x] => .ok (Vector.replicate n x)
  | none, _, _ => .error .shapeMismatch

end SparseWeights.Synthetic
