import SparseWeights.Estimator.Basic
import SparseWeights.Proofs.Admm.Watch
import SparseWeights.Proofs.Data.Value
import SparseWeights.Proofs.Solve

/-!
What an estimator goes through. A turn either brings a fit to its end, which
replaces all that was known at once, or leaves everything that is known as it
was. So after any number of turns the result is that of the last fit that came
to its end, under the hyperparameters that were in force then.
-/

namespace SparseWeights

namespace Estimator

/-- What a fit is asked for with. -/
structure Fitting where
  clock : Clock
  matrix : Value
  vector : Value
  start : Value
  observer : Option Observer

/-- A step together with the clock that times it. -/
abbrev Turn := Clock × Step

def Fitting.turn (fitting : Fitting) : Turn :=
  (fitting.clock, .fit fitting.matrix fitting.vector fitting.start fitting.observer)

/-- A turn that sets nothing but a hyperparameter. -/
def Turn.IsOf (kind : EstimatorKind) (turn : Turn) : Prop :=
  match turn.2 with
  | .set name _ => kind.defaults.has name = true
  | _ => True

/-- The hyperparameter that a turn sets, and the value that it gives it. -/
def Turn.setting? (turn : Turn) : Option (String × Value) :=
  match turn.2 with
  | .set name value => some (name, value)
  | _ => none

def take (e : Estimator) (turn : Turn) : Estimator × Except Error Answer := e.step turn.1 turn.2

def after (e : Estimator) : List Turn → Estimator
  | [] => e
  | turn :: rest => (e.take turn).1.after rest

def answers (e : Estimator) : List Turn → List (Except Error Answer)
  | [] => []
  | turn :: rest => (e.take turn).2 :: (e.take turn).1.answers rest

/-- Whether an answer is that of a fit that came to its end. -/
def isFit : Except Error Answer → Bool
  | .ok .fitted => true
  | _ => false

end Estimator

namespace EstimatorKind

/-- The program for some data, with the values of the hyperparameters. -/
def programWith (kind : EstimatorKind) (value : String → Value) (matrix vector : Value) :
    Except Error (Program.Sized Float) :=
  match kind with
  | regression => Solve.regression matrix vector
  | portfolio => Solve.portfolio matrix vector (value "phi")

/-- The result of a solve for some data, with the values of the hyperparameters. -/
def solveWith (kind : EstimatorKind) (value : String → Value) (fitting : Estimator.Fitting) :
    Except Error SizedResult := do
  let settings ← Settings.ofFields
    (settings.map fun setting => (setting.name, value setting.name))
  let program := kind.programWith value fitting.matrix fitting.vector
  let job := Solve.job program ⟨value "penalty", value "lam"⟩ (.ok settings) fitting.start
  Estimator.observed fitting.observer (Solve.reportOf job fitting.clock)

theorem has_operation (kind : EstimatorKind) (operation : Operation) :
    kind.defaults.has operation.name = false := by
  cases kind <;> cases operation <;> rfl

theorem has_attribute (kind : EstimatorKind) (a : Attribute) :
    kind.defaults.has a.name = false := by
  cases kind <;> cases a <;> rfl

theorem ofName?_of_has {kind : EstimatorKind} {name : String}
    (h : kind.defaults.has name = true) : Attribute.ofName? name = none := by
  rw [Attribute.ofName?, List.find?_eq_none]
  intro a _ heq
  rw [← eq_of_beq heq, has_attribute] at h
  cases h

end EstimatorKind

namespace Estimator

/-- The watchers of a run that is seen by an observer alone. -/
def watchers (observer : Option Observer) : Watchers (Except Error) Float :=
  ⟨fun _ => pure (), fun _ => pure (), observer⟩

theorem announce_watchers (observer : Option Observer) (settings : Settings Float) (i : Nat) :
    (watchers observer).announce settings i = pure () := by
  rw [Watchers.announce]
  split <;> rfl

theorem see_watchers (observer : Option Observer) (settings : Settings Float)
    (r : Record Nat Float) :
    (watchers observer).see settings r = observer.toList.forM fun observer => observer r := by
  rw [Watchers.see, announce_watchers, pure_bind, Watchers.receive, Watchers.sinks]
  split
  · simp [watchers]
  · rfl

theorem course_watchers {n : Nat} (observer : Option Observer) (settings : Settings Float)
    (trace : Trace Float n) :
    (watchers observer).course settings 0 trace =
      observer.toList.forM fun observer => trace.records.forM observer := by
  have hsee : (watchers observer).see settings = fun r =>
      observer.toList.forM fun observer => observer r :=
    funext (see_watchers observer settings)
  have hrecords : (trace.records.forM ((watchers observer).see settings)) =
      observer.toList.forM fun observer => trace.records.forM observer := by
    rw [hsee]
    cases observer with
    | none => induction trace.records with
      | nil => rfl
      | cons r records ih => exact ih
    | some observer => simp
  rw [Watchers.course, hrecords]
  cases trace.ending <;> simp [announce_watchers]

/-- What a fit observes is the run of its job under the eyes of the observer. -/
theorem observed_run {n : Nat} (observer : Option Observer) (job : Job Float n) (clock : Clock)
    (hiter : 0 < job.settings.maxIter) (hcount : job.settings.maxIter < Job.countLimit) :
    (observed observer (SizedJob.run ⟨n, job⟩ clock)).map (fun result =>
      (⟨result.1, .ofResult result.2⟩ : (n : Nat) × SparseWeights.Answer Float n)) = (do
        let outcome ← job.watch (watchers observer) clock
        let answer ← outcome
        return ⟨n, answer⟩) := by
  rw [job.watch_eq (watchers observer) clock hiter hcount, course_watchers, observed,
    SizedJob.run, Job.result_report, Job.result]
  have hseen : (job.report (job.trace clock)).seen = (job.trace clock).records := rfl
  rw [hseen]
  cases observer.toList.forM fun observer => (job.trace clock).records.forM observer with
  | error cause => rfl
  | ok _ => cases (job.trace clock).result job.penalty job.system.rho <;> rfl

/-- An estimator without parameters but those of its kind, and with nothing
given by hand. -/
structure Proper (kind : EstimatorKind) (e : Estimator) : Prop where
  kind_eq : e.kind = kind
  names : ∀ name, e.parameters.has name = true → kind.defaults.has name = true
  given_eq : ∀ a, e.given a = none

variable {kind : EstimatorKind} {e : Estimator}

namespace Proper

theorem ask_eq (he : Proper kind e) (operation : Operation)
    (hkind : operation.kind?.all (· = kind) = true) : e.ask operation = .ok () := by
  have hname : e.parameters.has operation.name = false := by
    cases h : e.parameters.has operation.name with
    | false => rfl
    | true => exact absurd (he.names _ h) (by simp [EstimatorKind.has_operation])
  rw [ask, hname, he.kind_eq]
  simp [hkind]

theorem settings_eq (he : Proper kind e) :
    e.settings = Settings.ofFields (EstimatorKind.settings.map fun setting =>
      (setting.name, e.parameter setting.name)) := by
  rw [settings, he.ask_eq .settings rfl]
  rfl

theorem solve_eq (he : Proper kind e) (fitting : Fitting) :
    e.solve fitting.clock fitting.matrix fitting.vector fitting.start fitting.observer =
      kind.solveWith e.parameter fitting := by
  have hprogram : e.program fitting.matrix fitting.vector =
      kind.programWith e.parameter fitting.matrix fitting.vector := by
    rw [program, he.kind_eq]
    cases kind <;> rfl
  rw [solve, he.ask_eq .fit rfl, he.settings_eq, hprogram]
  rfl

theorem keep (he : Proper kind e) (result : SizedResult) : Proper kind (e.keep result) where
  kind_eq := he.kind_eq
  names := he.names
  given_eq a := by
    simp [Estimator.keep, he.given_eq a]

theorem put (he : Proper kind e) {name : String} (hname : kind.defaults.has name = true)
    (value : Value) : Proper kind { e with parameters := e.parameters.put name value } where
  kind_eq := he.kind_eq
  names other hother := by
    rw [Fields.has_put, Bool.or_eq_true] at hother
    obtain heq | hother := hother
    · rwa [← eq_of_beq heq]
    · exact he.names other hother
  given_eq := he.given_eq

end Proper

variable {turn : Turn}

theorem isFit_map {α : Type} {f : α → Answer} (hf : ∀ a, f a ≠ .fitted) (x : Except Error α) :
    isFit (x.map f) = false := by
  cases x with
  | error cause => rfl
  | ok a =>
      have hne := hf a
      rw [Except.map]
      cases h : f a with
      | fitted => exact absurd h hne
      | _ => rfl

theorem take_fitting (he : Proper kind e) (fitting : Fitting) :
    e.take fitting.turn =
      match kind.solveWith e.parameter fitting with
      | .ok result => (e.keep result, .ok .fitted)
      | .error cause => (e, .error cause) := by
  rw [take, Fitting.turn, Estimator.step, fit, he.solve_eq fitting]
  cases kind.solveWith e.parameter fitting <;> rfl

/-- A turn is a fit that comes to its end, with the result that the data have
under the hyperparameters of the moment, or it changes no more than what it
sets. -/
theorem take_cases (he : Proper kind e) (hturn : turn.IsOf kind) :
    (∃ (fitting : Fitting) (result : SizedResult), turn = fitting.turn ∧
      kind.solveWith e.parameter fitting = .ok result ∧
      e.take turn = (e.keep result, .ok .fitted)) ∨
    (isFit (e.take turn).2 = false ∧
      (e.take turn).1 = { e with
        parameters := turn.setting?.elim e.parameters fun field =>
          e.parameters.put field.1 field.2 }) := by
  obtain ⟨clock, step⟩ := turn
  cases step with
  | fit matrix vector start observer =>
      have htake := take_fitting he ⟨clock, matrix, vector, start, observer⟩
      cases hresult : kind.solveWith e.parameter ⟨clock, matrix, vector, start, observer⟩ with
      | ok result =>
          rw [hresult] at htake
          exact .inl ⟨_, result, rfl, hresult, htake⟩
      | error cause =>
          rw [hresult] at htake
          rw [show e.take (clock, .fit matrix vector start observer) = _ from htake]
          exact .inr ⟨rfl, rfl⟩
  | set name value =>
      have hname := EstimatorKind.ofName?_of_has hturn
      exact .inr ⟨rfl, by simp [take, Estimator.step, Estimator.set, hname, Turn.setting?]⟩
  | predict X => exact .inr ⟨isFit_map (by simp) _, rfl⟩
  | score X y => exact .inr ⟨isFit_map (by simp) _, rfl⟩
  | summary Sigma mu => exact .inr ⟨isFit_map (by simp) _, rfl⟩
  | settings => exact .inr ⟨isFit_map (by simp) _, rfl⟩

theorem Proper.take (he : Proper kind e) (hturn : turn.IsOf kind) :
    Proper kind (e.take turn).1 := by
  obtain ⟨_, result, _, _, htake⟩ | ⟨_, htake⟩ := take_cases he hturn
  · rw [htake]
    exact he.keep result
  · rw [htake]
    obtain ⟨clock, step⟩ := turn
    cases step with
    | set name value => exact he.put hturn value
    | _ => exact he

variable {turns : List Turn}

theorem Proper.after (he : Proper kind e) (hturns : ∀ turn ∈ turns, turn.IsOf kind) :
    Proper kind (e.after turns) := by
  induction turns generalizing e with
  | nil => exact he
  | cons turn rest ih =>
      obtain ⟨hturn, hrest⟩ := List.forall_mem_cons.mp hturns
      exact ih (he.take hturn) hrest

end Estimator

end SparseWeights
