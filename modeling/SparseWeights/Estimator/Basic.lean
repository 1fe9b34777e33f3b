import SparseWeights.Admm.Watch
import SparseWeights.Estimator.Kind
import SparseWeights.Linear.Pairwise
import SparseWeights.Solve

/-!
Estimators: hyperparameters that can be set at any time, and the result of the last fit that came to an
end. Fitting solves a regression or a portfolio under the hyperparameters of the moment; a fit that fails
leaves the estimator as it was. Questions about a fit are answered from its result alone, and are refused
as long as there is none. What a fit has made known can also be given by hand, and stands until the next
fit that comes to an end.
-/

namespace SparseWeights

structure Estimator where
  kind : EstimatorKind
  parameters : Fields
  /-- The result of the last fit that came to an end. -/
  fitted : Option SizedResult
  /-- The attributes that have been given by hand since then. -/
  given : Attribute → Option Value

namespace Estimator

/-- An estimator with some of its hyperparameters given; there are no others. -/
def new (kind : EstimatorKind) (given : Fields) : Except Fault Estimator :=
  if given.any fun field => !kind.defaults.has field.1 then .error .wrongType
  else .ok {
    kind
    parameters := given.foldl (fun all field => all.put field.1 field.2) kind.defaults
    fitted := none
    given := fun _ => none }

/-- An estimator as a configuration describes it, where the factors go by the name `lambda`. -/
def ofConfig (kind : EstimatorKind) (config : Fields) : Except Fault Estimator :=
  match config.get? "lambda" with
  | some lam => new kind ((config.erase "lambda").put "lam" lam)
  | none => new kind config

def parameter (e : Estimator) (name : String) : Value := (e.parameters.get? name).getD .null

/-- Gives an attribute by hand, or sets a parameter: any other name is one. -/
def set (e : Estimator) (name : String) (value : Value) : Estimator :=
  match Attribute.ofName? name with
  | some known => { e with given := fun a => if a = known then some value else e.given a }
  | none => { e with parameters := e.parameters.put name value }

/-- Refuses an operation that the estimator does not have. A parameter that goes by the name of an
operation takes its place, and is no operation. -/
def ask (e : Estimator) (operation : Operation) : Except Fault Unit :=
  if e.parameters.has operation.name then .error .wrongType
  else if operation.kind?.all (· = e.kind) then .ok ()
  else .error .noMember

def settings (e : Estimator) : Except Error (Settings Float) := do
  e.ask .settings
  Settings.ofFields (EstimatorKind.settings.map fun setting =>
    (setting.name, e.parameter setting.name))

def program (e : Estimator) (matrix vector : Value) : Except Error (Program.Sized Float) :=
  match e.kind with
  | .regression => Solve.regression matrix vector
  | .portfolio => Solve.portfolio matrix vector (e.parameter "phi")

/-- Whoever receives the records of a fit, any of which they may refuse. -/
abbrev Observer := Sink (Except Error) Float

/-- The result of a report under the eyes of an observer: a record that is refused ends the fit. -/
def observed (observer : Option Observer) (report : Report) : Except Error SizedResult := do
  observer.toList.forM fun observer => report.seen.forM observer
  report.result

/-- The result for some data under the hyperparameters of the moment. -/
def solve (e : Estimator) (clock : Clock) (matrix vector start : Value)
    (observer : Option Observer) : Except Error SizedResult := do
  e.ask .fit
  let settings ← e.settings
  let request : Solve.Request := ⟨e.parameter "penalty", e.parameter "lam"⟩
  observed observer
    (Solve.reportOf (Solve.job (e.program matrix vector) request (.ok settings) start) clock)

/-- The estimator with the result of a fit, in place of what has been given by hand. -/
def keep (e : Estimator) (result : SizedResult) : Estimator where
  kind := e.kind
  parameters := e.parameters
  fitted := some result
  given := fun a => if a.isFitted e.kind then none else e.given a

def fit (e : Estimator) (clock : Clock) (matrix vector start : Value)
    (observer : Option Observer) : Estimator × Except Error Unit :=
  match e.solve clock matrix vector start observer with
  | .ok result => (e.keep result, .ok ())
  | .error cause => (e, .error cause)

/-- What an attribute holds: a value given by hand, or a part of a result. -/
inductive Known where
  | value (v : Value)
  | count (n : Nat)
  | vector (xs : List Float)
  | number (x : Float)
  | status (s : Status)
  | history (records : History Nat Float)

def Known.ofResult (r : SizedResult) : Attribute → Known
  | .features => .count r.2.w.toList.length
  | .weights => .vector r.2.w.toList
  | .alpha => .vector r.2.alpha.toList
  | .beta => .number r.2.beta
  | .penalty => .number r.2.penalty
  | .objective => .number r.2.objective
  | .status => .status r.2.status
  | .iterations => .count r.2.iterations
  | .rho => .number r.2.rho
  | .history => .history r.2.history

def known? (e : Estimator) (a : Attribute) : Option Known :=
  match e.given a with
  | some v => some (.value v)
  | none => if a.isFitted e.kind then e.fitted.map fun r => .ofResult r a else none

/-- The weights as they take part in products: those of the fit, or those given by hand, of which not
all can. An estimator without weights counts as not fitted. -/
def weights (e : Estimator) : Except Error (Except Fault (Tensor Float)) :=
  match e.given .weights, e.fitted with
  | some value, _ => .ok (Tensor.ofFactor value)
  | none, some ⟨_, result⟩ => .ok (.ok (.ofVec result.w))
  | none, none => .error (.notFitted e.kind.name)

/-- The number of features that rows have to have. -/
def features? (e : Estimator) : Option Value :=
  match e.given .features with
  | some value => some value
  | none =>
    if Attribute.features.isFitted e.kind then e.fitted.map fun result => .int result.1 else none

/-- Features as rows; a vector is a single feature. -/
def rowsOf (X : Tensor Float) : Tensor Float := if X.shape.length = 1 then X.column else X

def predict (e : Estimator) (X : Value) : Except Error (Tensor Float) := do
  e.ask .predict
  let weights ← e.weights
  let X := rowsOf (← Tensor.ofValue X)
  match X.shape[1]?, e.features? with
  | none, _ => .error (.fault .noAxis)
  | some _, none => .error (.fault .noMember)
  | some width, some count =>
    if count.sameNumber (.int (Int.ofNat width)) then X.matmul (← weights)
    else .error (.invalid .featureCount)

/-- The sum of the squares of the deviations from the mean. -/
def variation {n : Nat} (y : Vec Float n) : Float :=
  let mean := Vec.mean y
  let centered := y.map fun x => x - mean
  Vec.dot centered centered

/-- The share of the variation of a response that the fitted values explain, or zero for a response that
does not vary. -/
def score (e : Estimator) (X y : Value) : Except Error Float := do
  e.ask .score
  let y := (← Tensor.ofValue y).flat
  let fitted ← e.predict X
  let residual ← Tensor.zipWith (fun y x => y - x) (.ofVec y) fitted
  let total := variation y
  if total == 0 then return 0
  else
    let square ← (← residual.matmul residual).toNumber
    return 1 - square / total

structure Summary where
  expectedReturn : Float
  risk : Float
  active : Nat
  grossExposure : Float

def summary (e : Estimator) (Sigma mu : Value) : Except Error Summary := do
  e.ask .summary
  let weights ← e.weights
  let Sigma ← Tensor.ofValue Sigma
  let mu ← Tensor.ofValue mu
  let w ← weights
  let variance ← (← (← w.matmul Sigma).matmul w).toNumber
  let mean ← (← (Tensor.ofVec mu.flat).matmul w).toNumber
  return {
    expectedReturn := mean
    risk := (Scalar.larger variance 0).sqrt
    active := w.entries.countP fun x => decide (0 < x.abs)
    grossExposure := Vec.norm1 w.flat }

inductive Step where
  | set (name : String) (value : Value)
  | fit (matrix vector start : Value) (observer : Option Observer)
  | predict (X : Value)
  | score (X y : Value)
  | summary (Sigma mu : Value)
  | settings

inductive Answer where
  | done
  | fitted
  | values (y : Tensor Float)
  | score (x : Float)
  | summary (s : Summary)
  | settings (s : Settings Float)

def step (e : Estimator) (clock : Clock) : Step → Estimator × Except Error Answer
  | .set name value => (e.set name value, .ok .done)
  | .fit matrix vector start observer =>
    let (next, outcome) := e.fit clock matrix vector start observer
    (next, outcome.map fun _ => .fitted)
  | .predict X => (e, (e.predict X).map .values)
  | .score X y => (e, (e.score X y).map .score)
  | .summary Sigma mu => (e, (e.summary Sigma mu).map .summary)
  | .settings => (e, e.settings.map .settings)

end Estimator

end SparseWeights
