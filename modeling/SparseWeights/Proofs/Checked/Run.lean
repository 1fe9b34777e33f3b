import SparseWeights.Proofs.Admm.Convergence
import SparseWeights.Proofs.Admm.Simulation
import SparseWeights.Proofs.Checked.Penalty
import SparseWeights.Proofs.Checked.Program

/-!
Nothing goes wrong in a run once its inputs were let through. The step size is
positive and the objective that the gap is divided by is taken as at least one, so
an iteration with defined numbers is the iteration over the reals; and over the
reals no iteration fails. What remains is a limit on the iterations that is too
large to count to.
-/

namespace SparseWeights

variable {n : ℕ}

namespace State

abbrev checked (s : State ℝ n) : State Checked n := s.map Vec.checked .number

theorem start_checked (w : Vec ℝ n) : start w.checked = (start w).checked := by
  simp [start, State.map, Checked.zero_eq]

theorem rightSide_checked (linear : Vec ℝ n) (rho : ℝ) (s : State ℝ n) :
    s.checked.rightSide linear.checked (.number rho) =
      (s.rightSide linear rho).checked := by
  apply Vec.eq_of_get
  simp [rightSide, State.map, Checked.one_eq]

theorem updated_checked (penalty : Penalty ℝ n) {rho : ℝ} (hrho : rho ≠ 0)
    (s : State ℝ n) (w : Vec ℝ n) :
    s.checked.updated penalty.checked (.number rho) w.checked =
      (s.updated penalty rho w).checked := by
  have hpoint : Vec.add w.checked (s.checked.alpha.map fun x => x / Checked.number rho) =
      (Vec.add w (s.alpha.map fun x => x / rho)).checked := by
    apply Vec.eq_of_get
    simp [State.map, Checked.number_div _ hrho]
  have hstep : (1 / Checked.number rho : Checked) = .number (1 / rho) :=
    Checked.number_div 1 hrho
  simp only [updated, hpoint, hstep, Penalty.prox_checked]
  simp [State.map, Checked.one_eq]

end State

theorem measure_checked (p : Program ℝ n) (penalty : Penalty ℝ n) (rho : ℝ) (i : ℕ)
    (w : Vec ℝ n) (next : State ℝ n) (dual : ℝ) :
    measure p.checked penalty.checked (.number rho) i w.checked next.checked
        (.number dual) =
      (measure p penalty rho i w next dual).map id .number := by
  set primal := p.objective.value w + penalty.value w with hprimal
  have hvalue : p.checked.objective.value w.checked + penalty.checked.value w.checked =
      .number primal := by
    rw [penalty.value_checked, hprimal, ← Checked.number_add]
    congr 1
    exact p.objective.value_checked w
  have hscale : max 1 primal ≠ 0 := (lt_max_of_lt_left one_pos).ne'
  have hgap := Checked.number_div |primal - dual| hscale
  simp only [measure, hvalue]
  simp [Record.map, State.map, Checked.one_eq, Penalty.dualInfeasibility_checked, hgap,
    ← hprimal]

/-- As long as the step size is not zero an iteration stays defined. -/
theorem State.advance_checked (p : Program ℝ n) (penalty : Penalty ℝ n)
    (system : WeightSystem ℝ n) (hrho : system.rho ≠ 0) (s : State ℝ n) (i : ℕ) :
    s.checked.advance p.checked penalty.checked system.checked i =
      (s.advance p penalty system i).map (Step.map Vec.checked .number) := by
  have hlinear : p.checked.linear = p.linear.checked := rfl
  have hsystem : system.checked.rho = .number system.rho := rfl
  simp only [advance, hlinear, hsystem, rightSide_checked, WeightSystem.solve?_checked]
  cases system.solve? (s.rightSide p.linear system.rho) with
  | none => rfl
  | some w =>
      set next := s.updated penalty system.rho w with hnext
      have hdual : p.checked.dualObjective? next.checked.alpha next.checked.beta =
          (p.dualObjective? next.alpha next.beta).map .number :=
        p.dualObjective?_checked next.alpha next.beta
      simp only [Option.map_some, updated_checked penalty hrho, ← hnext, hdual]
      cases p.dualObjective? next.alpha next.beta with
      | none => rfl
      | some dual =>
          simp only [Option.map_some, measure_checked]
          split
          · rfl
          · rfl

namespace Settings

/-- The settings as ones of defined numbers, with a step size. -/
def checked (settings : Settings ℝ) (rho : ℝ) : Settings Checked where
  maxIter := settings.maxIter
  tolInfeas := .number settings.tolInfeas
  tolRelGap := .number settings.tolRelGap
  rho := some (.number rho)
  verbose := settings.verbose
  progress := settings.progress
  timeLimit := settings.timeLimit.map .number

theorem stop?_checked (settings : Settings ℝ) (rho : ℝ) (r : Record ℕ ℝ) (now : ℝ) :
    (settings.checked rho).stop? (r.map id .number) (.number now) =
      settings.stop? r now := by
  have haccepts : (settings.checked rho).accepts (r.map id .number) =
      settings.accepts r := by
    simp [accepts, checked, Record.map]
  have htime : (settings.checked rho).timedOut (.number now) = settings.timedOut now := by
    cases hlimit : settings.timeLimit with
    | none => simp [timedOut, checked, hlimit]
    | some limit => simp [timedOut, checked, hlimit]
  rw [stop?, haccepts, htime, stop?]

end Settings

namespace Job

def checked (job : Job ℝ n) : Job Checked n :=
  ⟨job.program.checked, job.penalty.checked, job.settings.checked job.system.rho,
    job.system.checked, job.start.checked⟩

theorem readsAs_checked (job : Job ℝ n) (hrho : job.system.rho ≠ 0) (elapsed : ℕ → ℝ) :
    job.ReadsAs Vec.checked .number elapsed job.checked fun i => .number (elapsed i) where
  advance := State.advance_checked job.program job.penalty job.system hrho
  stop := fun r i => job.settings.stop?_checked job.system.rho r (elapsed i)
  maxIter := rfl
  start := State.start_checked job.start
  value := job.penalty.value_checked
  rho := rfl

theorem ofProgram?_checked {program : Program ℝ n} {penalty : Penalty ℝ n}
    {settings : Settings ℝ} {start : Vec ℝ n} {job : Job ℝ n}
    (hjob : ofProgram? program penalty settings start = some job) :
    ofProgram? program.checked penalty.checked
      (settings.checked (settings.rhoFor program)) start.checked = some job.checked := by
  obtain ⟨system, hsystem, rfl⟩ := ofProgram?_eq_some hjob
  obtain ⟨hquadratic, hrho⟩ := WeightSystem.ofMatrix?_eq_some hsystem
  have hsame : WeightSystem.ofMatrix? program.checked.quadratic
      ((settings.checked (settings.rhoFor program)).rhoFor program.checked) =
        some system.checked := by
    rw [← WeightSystem.ofMatrix?_self system.checked]
    congr 1
    · exact congrArg Mat.checked hquadratic.symm
    · exact congrArg Checked.number hrho.symm
  rw [ofProgram?, hsame, checked, hrho]
  rfl

end Job

/-- Weights that all are the same are defined as soon as there are some. -/
theorem evenWeights_checked (hn : 0 < n) :
    (evenWeights n : Vec Checked n) = Vec.checked (evenWeights n) := by
  have hcount : (n : ℝ) ≠ 0 := Nat.cast_ne_zero.mpr hn.ne'
  have hentry := Checked.number_div 1 hcount
  simp [evenWeights, Checked.one_eq, hentry]

/-- No run fails that was let through, as far as its limit can be counted to: there
is a factor for the weight update, whatever the program is and however the step size
was chosen, and the iterations come to an answer without ever leaving the domain of
an operation. Only a limit that cannot be counted to is a fault, although it is
accepted. -/
theorem run_returns (hn : 0 < n) (program : Program ℝ n) (penalty : Penalty ℝ n)
    {settings : Settings ℝ} (hsettings : settings.Accepted) (start : Vec ℝ n) :
    (evenWeights n : Vec Checked n) = Vec.checked (evenWeights n) ∧
    ∃ job : Job ℝ n, Job.ofProgram? program penalty settings start = some job ∧
      Job.ofProgram? program.checked penalty.checked
        (settings.checked (settings.rhoFor program)) start.checked = some job.checked ∧
      ∀ elapsed,
        (settings.maxIter < Job.countLimit → ∃ result, job.result elapsed = .ok result ∧
          job.checked.result (fun i => .number (elapsed i)) =
            .ok (result.map Vec.checked .number)) ∧
        (¬ settings.maxIter < Job.countLimit → job.result elapsed = .error .tooLarge) := by
  refine ⟨evenWeights_checked hn, ?_⟩
  have hrho := hsettings.rhoFor_pos program
  obtain ⟨system, hsystem⟩ := WeightSystem.exists_ofMatrix? program hrho
  have hjob := Job.ofProgram?_of_system hsystem penalty start
  refine ⟨_, hjob, Job.ofProgram?_checked hjob, ?_⟩
  intro elapsed
  constructor
  · intro hcount
    obtain ⟨result, hresult⟩ := Job.exists_result_of_pos
      ⟨program, penalty, settings, system, start⟩ hn hcount elapsed
    have hsystem_rho : system.rho ≠ 0 := by
      rw [(WeightSystem.ofMatrix?_eq_some hsystem).2]
      exact hrho.ne'
    have hreads := Job.readsAs_checked ⟨program, penalty, settings, system, start⟩
      hsystem_rho elapsed
    refine ⟨result, hresult, ?_⟩
    rw [hreads.result_eq (Settings.accepted_iff.mp hsettings).1, hresult]
    rfl
  · intro hcount
    exact Job.result_of_countLimit hcount elapsed

/-- On two weights the run answers. -/
theorem run_returns_pair :
    0 < 2 ∧ pairSettings.Accepted ∧ ∃ (program : Program ℝ 2) (job : Job ℝ 2),
      Job.ofProgram? program pairPenalty pairSettings #v[1, 0] = some job ∧
      ∃ result, job.result 0 = .ok result ∧
        job.checked.result (fun _ => .number 0) = .ok (result.map Vec.checked .number) := by
  obtain ⟨program, _, _⟩ := exists_pairProgram
  obtain ⟨_, job, hjob, _, hresult⟩ :=
    run_returns two_pos program pairPenalty pairSettings_accepted #v[1, 0]
  exact ⟨two_pos, pairSettings_accepted, program, job, hjob,
    (hresult 0).1 pairSettings_maxIter_lt⟩

/-- With a limit of two to the sixty-third power, which is accepted as well, it does
not: the fault is found in front of the first iteration. -/
theorem exists_run_tooLarge_pair :
    pairPenalty.Accepted ∧ { pairSettings with maxIter := 2 ^ 63 }.Accepted ∧
    ∃ (program : Program ℝ 2) (job : Job ℝ 2),
      Program.regression (.ok (.ofMat pairDesign)) (.ok (.ofVec pairResponse)) =
        .ok ⟨2, program⟩ ∧
      Job.ofProgram? program pairPenalty { pairSettings with maxIter := 2 ^ 63 }
        #v[1, 0] = some job ∧
      ∀ elapsed, job.result elapsed = .error .tooLarge := by
  obtain ⟨program, _, hprogram⟩ := Program.exists_regression pairDesign pairResponse
    (by simp [pairDesign_toMatrix])
  have hpositive : 0 < 2 ^ 63 := by
    decide
  have hcount : ¬ 2 ^ 63 < Job.countLimit := by
    decide
  have hsettings := pairSettings_accepted.withLimit hpositive
  obtain ⟨system, hsystem⟩ :=
    WeightSystem.exists_ofMatrix? program (hsettings.rhoFor_pos program)
  exact ⟨pairPenalty_falls.accepted two_pos, hsettings, program, _, hprogram,
    Job.ofProgram?_of_system hsystem pairPenalty #v[1, 0],
    Job.result_of_countLimit hcount⟩

end SparseWeights
