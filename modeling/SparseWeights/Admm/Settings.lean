import SparseWeights.Data.Number
import SparseWeights.Error
import SparseWeights.Scalar

/-!
The settings of a run. A draft gives every setting a value of any kind; `ofDraft` makes settings of it
when the values are numbers in range. Options from outside name settings by their own names or by
aliases: they are laid over the draft of a base in their order, so the last one for a setting stands, and
names that mean no setting are left out.
-/

namespace SparseWeights

/-- The settings, in the order in which they are converted. -/
inductive Setting where
  | maxIter
  | tolInfeas
  | tolRelGap
  | rho
  | verbose
  | progress
  | timeLimit
  deriving DecidableEq, Repr

namespace Setting

def all : List Setting := [maxIter, tolInfeas, tolRelGap, rho, verbose, progress, timeLimit]

def name : Setting → String
  | maxIter => "max_iter"
  | tolInfeas => "tol_infeas"
  | tolRelGap => "tol_rel_gap"
  | rho => "rho"
  | verbose => "verbose"
  | progress => "progress"
  | timeLimit => "time_limit"

def alias? : Setting → Option String
  | maxIter => some "maxIter"
  | tolInfeas => some "tolInfeas"
  | tolRelGap => some "tolRelGap"
  | timeLimit => some "timeLimit"
  | rho | verbose | progress => none

def ofName? (key : String) : Option Setting := all.find? fun s => s.name == key

def ofOption? (key : String) : Option Setting :=
  all.find? fun s => s.name == key || s.alias? == some key

end Setting

/-- A value for every setting, not yet checked. -/
abbrev Draft := Setting → Value

namespace Draft

def put (draft : Draft) (setting : Setting) (value : Value) : Draft :=
  fun s => if s = setting then value else draft s

def putOptions (draft : Draft) (options : Fields) : Draft :=
  options.foldl (fun draft option =>
    match Setting.ofOption? option.1 with
    | some setting => draft.put setting option.2
    | none => draft) draft

end Draft

/-- The settings of a run. A setting that is absent is left to the problem, or does not limit it. -/
structure Settings (α : Type) where
  maxIter : Nat
  tolInfeas : α
  tolRelGap : α
  rho : Option α
  verbose : Value
  progress : Value
  timeLimit : Option α

namespace Settings

def default : Settings Float where
  maxIter := 10000
  tolInfeas := 1e-5
  tolRelGap := 1e-5
  rho := none
  verbose := .bool false
  progress := .bool false
  timeLimit := none

def optionalNumber (x : Option Float) : Value := x.elim .null .float

def toDraft (s : Settings Float) : Draft
  | .maxIter => .int s.maxIter
  | .tolInfeas => .float s.tolInfeas
  | .tolRelGap => .float s.tolRelGap
  | .rho => optionalNumber s.rho
  | .verbose => s.verbose
  | .progress => s.progress
  | .timeLimit => optionalNumber s.timeLimit

/-- A number that a setting asks for. A number out of range is a fault; anything else that is no number
is invalid. -/
def number {β : Type} (conversion : Except Fault β) : Except Error β :=
  match conversion with
  | .ok x => .ok x
  | .error .tooLarge => .error (.fault .tooLarge)
  | .error _ => .error (.invalid .settingNotNumber)

def number? (value : Value) : Except Error (Option Float) :=
  match value with
  | .null => .ok none
  | value => some <$> number value.toFloat

/-- The numbers among the settings, converted but not yet checked. -/
structure Numbers (α : Type) where
  maxIter : Int
  tolInfeas : α
  tolRelGap : α
  rho : Option α
  timeLimit : Option α

def Numbers.ofDraft (draft : Draft) : Except Error (Numbers Float) := do
  let maxIter ← number (draft .maxIter).toInt
  let tolInfeas ← number (draft .tolInfeas).toFloat
  let tolRelGap ← number (draft .tolRelGap).toFloat
  let rho ← number? (draft .rho)
  let timeLimit ← number? (draft .timeLimit)
  return { maxIter, tolInfeas, tolRelGap, rho, timeLimit }

variable {α : Type} [Scalar α]

/-- The first check that the numbers do not pass. -/
def Numbers.invalid? (x : Numbers α) : Option Invalid :=
  if x.maxIter ≤ 0 then some .maxIter
  else if ¬ (0 < x.tolInfeas ∧ 0 < x.tolRelGap) then some .tolerances
  else if x.rho.any fun rho => !Scalar.isPositive rho then some .rho
  else if x.timeLimit.any fun limit => decide (limit ≤ 0) then some .timeLimit
  else none

def ofNumbers (x : Numbers α) (verbose progress : Value) : Except Invalid (Settings α) :=
  match x.invalid? with
  | some cause => .error cause
  | none => .ok {
      maxIter := x.maxIter.toNat
      tolInfeas := x.tolInfeas
      tolRelGap := x.tolRelGap
      rho := x.rho
      verbose
      progress
      timeLimit := x.timeLimit }

def ofDraft (draft : Draft) : Except Error (Settings Float) := do
  let x ← Numbers.ofDraft draft
  ofNumbers x (draft .verbose) (draft .progress)

/-- The settings that fields spell, each by its own name; the others have their defaults. -/
def ofFields (fields : Fields) : Except Error (Settings Float) :=
  if fields.any fun field => (Setting.ofName? field.1).isNone then .error (.fault .wrongType)
  else ofDraft (default.toDraft.putOptions fields)

/-- Settings with options laid over them. Options that count as false change nothing; others have to be
a record. -/
def withOptions (base : Settings Float) (options : Value) : Except Error (Settings Float) :=
  if !options.isTruthy then .ok base
  else
    match options with
    | .record fields => ofDraft (base.toDraft.putOptions fields)
    | _ => .error (.fault .noMember)

def ignoredOptions : Value → List String
  | .record fields => (fields.map (·.1)).filter fun key => (Setting.ofOption? key).isNone
  | _ => []

def toFields (s : Settings Float) : Fields :=
  Setting.all.map fun setting => (setting.name, s.toDraft setting)

end Settings

end SparseWeights
