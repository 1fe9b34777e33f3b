import SparseWeights.Proofs.Admm.Loose
import SparseWeights.Proofs.Error

/-!
Every refusal comes before the first record. A solve is prepared in full, and
what is prepared no longer fails except by its arithmetic. To say so without the
sizes that the types of vectors carry, the solve is repeated in arrays of
whatever shape, with every check in its place: the records and the answer are the
same, so none of the checks inside the loop is ever the one that fails.
-/

namespace SparseWeights

theorem Job.result_report {n : Nat} (job : Job Float n) (trace : Trace Float n) :
    (job.report trace).result =
      ((trace.result job.penalty job.system.rho).mapError .fault).map fun result =>
        ⟨n, result⟩ := by
  rw [report]
  cases trace.result job.penalty job.system.rho with
  | error cause => rfl
  | ok result => rfl

namespace Solve

/-- What is in front of the first iteration: the penalty as it was read, and the job. -/
def prepare (p : Except Error (Program.Sized Float)) (request : Request)
    (settings : Except Error (Settings Float)) (start : Value) :
    Except Error (PenaltySpec Float × SizedJob) := do
  let p ← p
  let spec ← request.spec p.1
  let job ← jobOf p spec (← settings) start
  return (spec, job)

theorem job_eq_prepare (p : Except Error (Program.Sized Float)) (request : Request)
    (settings : Except Error (Settings Float)) (start : Value) :
    job p request settings start = (prepare p request settings start).map (·.2) := by
  cases p with
  | error e => rfl
  | ok p =>
      simp only [job, prepare, bind, Except.bind]
      cases request.spec p.1 with
      | error e => rfl
      | ok spec =>
          cases settings with
          | error e => rfl
          | ok settings =>
              simp only
              cases jobOf p spec settings start with
              | error e => rfl
              | ok job => rfl

/-- The penalty of a job has the factors that were read, as many as there are weights. -/
theorem fit_of_jobOf {p : Program.Sized Float} {spec : PenaltySpec Float}
    {settings : Settings Float} {start : Value} {n : Nat} {job : Job Float n}
    (h : jobOf p spec settings start = .ok ⟨n, job⟩) : spec.fit n = .ok job.penalty := by
  obtain ⟨k, program⟩ := p
  obtain ⟨penalty, hpenalty, hrest⟩ := bind_eq_ok_iff.mp h
  obtain ⟨w, _, hmade⟩ := bind_eq_ok_iff.mp hrest
  have hfit := liftM_invalid_eq_ok_iff.mp hpenalty
  cases hjob : Job.ofProgram? program penalty settings w with
  | none =>
      simp only [hjob] at hmade
      cases hmade
  | some made =>
      simp only [hjob] at hmade
      cases hmade
      obtain ⟨system, _, rfl⟩ := Job.ofProgram?_eq_some hjob
      exact hfit

theorem fit_of_prepare {p : Except Error (Program.Sized Float)} {request : Request}
    {settings : Except Error (Settings Float)} {start : Value} {spec : PenaltySpec Float}
    {n : Nat} {job : Job Float n}
    (h : prepare p request settings start = .ok (spec, ⟨n, job⟩)) :
    spec.fit n = .ok job.penalty := by
  obtain ⟨p, _, h⟩ := bind_eq_ok_iff.mp h
  obtain ⟨spec', _, h⟩ := bind_eq_ok_iff.mp h
  obtain ⟨settings, _, h⟩ := bind_eq_ok_iff.mp h
  obtain ⟨job', hjob, h⟩ := bind_eq_ok_iff.mp h
  cases h
  exact fit_of_jobOf hjob

/-- A solve with the loop in arrays: the records that are handed out, and the answer. -/
def looseRun (p : Except Error (Program.Sized Float)) (request : Request)
    (settings : Except Error (Settings Float)) (start : Value) (clock : Clock) :
    History Nat Float × Except Error (LooseResult Float) :=
  match prepare p request settings start with
  | .error e => ([], .error e)
  | .ok (spec, ⟨_, job⟩) =>
    let trace := job.looseTrace spec clock
    (trace.records, trace.result spec job.system.rho)

/-- Refusals are eager. If a solve ends in an error that is no fault of the
arithmetic, then no record has been handed out and no event reported; and with
all the checks of the loop in their places the solve hands out the same records
and comes to the same answer, so that no check fails once the loop has begun. -/
theorem errors_precede_records (p : Except Error (Program.Sized Float)) (request : Request)
    (settings : Except Error (Settings Float)) (start : Value) (clock : Clock) :
    (∀ e, (reportOf (job p request settings start) clock).result = .error e →
      (∀ cause, e ≠ .fault cause) →
      (reportOf (job p request settings start) clock).seen = [] ∧
        (reportOf (job p request settings start) clock).events = []) ∧
    looseRun p request settings start clock =
      ((reportOf (job p request settings start) clock).seen,
        (reportOf (job p request settings start) clock).result.map fun result =>
          result.2.loose) := by
  rw [job_eq_prepare, looseRun]
  cases hprepare : prepare p request settings start with
  | error e => exact ⟨fun _ _ _ => ⟨rfl, rfl⟩, rfl⟩
  | ok prepared =>
      obtain ⟨spec, n, job⟩ := prepared
      have hfit := fit_of_prepare hprepare
      have hreport : reportOf ((Except.ok (spec, ⟨n, job⟩)).map (·.2)) clock =
          job.report (job.trace clock) := rfl
      simp only [hreport, Job.looseTrace_eq hfit, Trace.result_loose hfit, Job.result_report]
      cases (job.trace clock).result job.penalty job.system.rho with
      | error cause =>
          refine ⟨?_, rfl⟩
          rintro e ⟨⟩ hcause
          exact absurd rfl (hcause cause)
      | ok result =>
          refine ⟨?_, rfl⟩
          rintro e ⟨⟩

def pairRows : Value := .list [.list [.float 1, .float 0], .list [.float 0, .float 1]]

def pairValues : Value := .list [.float 1, .float 0]

/-- Settings under which the first iteration from weights that fit passes the test. -/
def wideSettings : Settings Float where
  maxIter := 10
  tolInfeas := 0.5
  tolRelGap := 0.05
  rho := some 1
  verbose := .bool false
  progress := .bool false
  timeLimit := none

/-- One factor by rank for two weights is refused, and no record is handed out; a
single factor for both is not, and its run in arrays hands out one record. -/
theorem errors_precede_records_pair :
    (reportOf (job (regression pairRows pairValues) ⟨.text "SortedL1", .list [.float 1]⟩
        (.ok wideSettings) pairValues) 0).result = .error (.invalid (.weightsLength 1 2)) ∧
      (reportOf (job (regression pairRows pairValues) ⟨.text "SortedL1", .list [.float 1]⟩
        (.ok wideSettings) pairValues) 0).seen = [] ∧
      (looseRun (regression pairRows pairValues) ⟨.text "L1", .float 0.125⟩
        (.ok wideSettings) pairValues 0).1.length = 1 := by
  have hrefused : (match job (regression pairRows pairValues)
      ⟨.text "SortedL1", .list [.float 1]⟩ (.ok wideSettings) pairValues with
    | .error (.invalid (.weightsLength 1 2)) => true
    | _ => false) = true := by
    decide +kernel
  have hcount : (reportOf (job (regression pairRows pairValues) ⟨.text "L1", .float 0.125⟩
      (.ok wideSettings) pairValues) 0).seen.length = 1 := by
    decide +kernel
  split at hrefused
  · rename_i hjob
    have hresult : (reportOf (job (regression pairRows pairValues)
        ⟨.text "SortedL1", .list [.float 1]⟩ (.ok wideSettings) pairValues) 0).result =
          .error (.invalid (.weightsLength 1 2)) := by
      rw [hjob]
      rfl
    obtain ⟨heager, _⟩ := errors_precede_records (regression pairRows pairValues)
      ⟨.text "SortedL1", .list [.float 1]⟩ (.ok wideSettings) pairValues 0
    obtain ⟨_, hloose⟩ := errors_precede_records (regression pairRows pairValues)
      ⟨.text "L1", .float 0.125⟩ (.ok wideSettings) pairValues 0
    refine ⟨hresult, (heager _ hresult ?_).1, ?_⟩
    · rintro cause ⟨⟩
    · rw [hloose, hcount]
  · cases hrefused

end Solve

end SparseWeights
