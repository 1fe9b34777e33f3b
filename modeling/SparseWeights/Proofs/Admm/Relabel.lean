import SparseWeights.Proofs.Admm.Adapters
import SparseWeights.Proofs.Admm.Certificate
import SparseWeights.Proofs.Admm.Simulation
import SparseWeights.Proofs.Penalty.Relabel
import SparseWeights.Proofs.Program.Relabel

/-!
Runs under other names for the weights. Every update of an iteration renames its
result if its arguments are renamed, and what is recorded does not change at all.
So the run on the renamed problem is the renamed run: it stops where the other
one does, for the same reason and with the same history. The factors of the
penalty keep their order, since they belong to ranks and not to names.
-/

namespace SparseWeights

variable {n : ℕ} (names : Equiv.Perm (Fin n))

theorem Mat.shifted_relabel (Q : Mat ℝ n n) (rho : ℝ) :
    Mat.shifted (Mat.relabel names Q) rho = Mat.relabel names (Mat.shifted Q rho) := by
  apply Vec.eq_of_get
  intro i
  apply Vec.eq_of_get
  intro j
  simp [Mat.shifted, Mat.ofFn]

theorem WeightSystem.solve?_relabel {system system' : WeightSystem ℝ n}
    (hquadratic : system'.quadratic = Mat.relabel names system.quadratic)
    (hrho : system'.rho = system.rho) (hsymmetric : (Mat.toMatrix system.quadratic).IsSymm)
    (b : Vec ℝ n) :
    system'.solve? (Vec.relabel names b) = (system.solve? b).map (Vec.relabel names) := by
  have hfactor' : Factor.ofMatrix? (Mat.relabel names
      (Mat.shifted system.quadratic system.rho)) = some system'.factor := by
    rw [← Mat.shifted_relabel, ← hquadratic, ← hrho, system'.factor_eq]
  have hsolve := Factor.solve_relabel names system.factor_eq
    (Mat.shifted_isSymm hsymmetric system.rho) hfactor' b
  rw [WeightSystem.solve?, WeightSystem.solve?, Factor.solve?_eq_some,
    Factor.solve?_eq_some, hsolve, Option.map_some]

namespace State

/-- The state with other names for the weights. -/
abbrev relabel (s : State ℝ n) : State ℝ n := s.map (Vec.relabel names) id

theorem rightSide_relabel (linear : Vec ℝ n) (rho : ℝ) (s : State ℝ n) :
    (s.relabel names).rightSide (Vec.relabel names linear) rho =
      Vec.relabel names (s.rightSide linear rho) := by
  simp [rightSide, State.map]

theorem updated_relabel {penalty : Penalty ℝ n} (hpenalty : penalty.Falls) {rho : ℝ}
    (hrho : 0 < rho) (s : State ℝ n) (w : Vec ℝ n) :
    (s.relabel names).updated penalty rho (Vec.relabel names w) =
      (s.updated penalty rho w).relabel names := by
  simp only [updated, State.map, ← Vec.relabel_map, ← Vec.relabel_add,
    Penalty.prox_relabel names penalty hpenalty _ (one_div_pos.mpr hrho),
    ← Vec.relabel_sub, ← Vec.relabel_scale, Vec.total_relabel, id_eq]

end State

theorem measure_relabel {p p' : Program ℝ n} (hnames : p.IsRelabelled names p')
    (penalty : Penalty ℝ n) (rho : ℝ) (i : ℕ) (w : Vec ℝ n) (next : State ℝ n)
    (dual : ℝ) :
    measure p' penalty rho i (Vec.relabel names w) (next.relabel names) dual =
      measure p penalty rho i w next dual := by
  simp only [measure, hnames.value_eq, Penalty.value_relabel, State.map,
    ← Vec.relabel_sub, Vec.maxAbs_relabel, Vec.total_relabel,
    Penalty.dualInfeasibility_relabel]

/-- An iteration under other names is the renamed iteration. -/
theorem State.advance_relabel {p p' : Program ℝ n} (hnames : p.IsRelabelled names p')
    (hsymmetric : p.Symmetric) {penalty : Penalty ℝ n} (hpenalty : penalty.Falls)
    {system system' : WeightSystem ℝ n} (hquadratic : system.quadratic = p.quadratic)
    (hquadratic' : system'.quadratic = p'.quadratic) (hrho : system'.rho = system.rho)
    (hpos : 0 < system.rho) (s : State ℝ n) (i : ℕ) :
    (s.relabel names).advance p' penalty system' i =
      (s.advance p penalty system i).map (Step.map (Vec.relabel names) id) := by
  have hsolve := WeightSystem.solve?_relabel names
    (hquadratic'.trans (hnames.quadratic_eq.trans (congrArg _ hquadratic.symm))) hrho
    (hquadratic ▸ hsymmetric) (s.rightSide p.linear system.rho)
  simp only [advance, hrho, hnames.linear_eq, rightSide_relabel, hsolve]
  cases system.solve? (s.rightSide p.linear system.rho) with
  | none => rfl
  | some w =>
      have hdual := hnames.dualObjective?_eq hsymmetric
        (s.updated penalty system.rho w).alpha (s.updated penalty system.rho w).beta
      simp only [Option.map_some, updated_relabel names hpenalty hpos,
        measure_relabel names hnames]
      simp only [State.map, id_eq, hdual]
      cases p.dualObjective? (s.updated penalty system.rho w).alpha
          (s.updated penalty system.rho w).beta with
      | none => rfl
      | some dual =>
          dsimp only
          split
          · rfl
          · rfl

/-- The answer with other names for the weights. -/
def Result.relabel (result : Result ℝ n) : Result ℝ n :=
  { result with
    w := Vec.relabel names result.w
    alpha := Vec.relabel names result.alpha }

theorem Result.map_relabel :
    (Result.map (Vec.relabel names) id : Result ℝ n → Result ℝ n) =
      Result.relabel names := by
  funext result
  have hhistory : result.history.map (Record.map id id) = result.history :=
    List.map_id result.history
  rw [Result.map, hhistory]
  rfl

/-- The runs on the second program, with the same step size, are those on the
first under other names. There is such a run for every penalty, all settings and
every start, and it returns unless its limit cannot be counted to. -/
def Program.RunsRelabelled (p p' : Program ℝ n) : Prop :=
  ∀ (penalty : Penalty ℝ n) (settings : Settings ℝ) (rho : ℝ) (start : Vec ℝ n),
    penalty.Accepted → settings.Accepted → settings.rho = some rho →
    ∃ job job', Job.ofProgram? p penalty settings start = some job ∧
      Job.ofProgram? p' penalty settings (Vec.relabel names start) = some job' ∧
      ∀ elapsed,
        job'.result elapsed = (job.result elapsed).map (Result.relabel names) ∧
        (0 < n → settings.maxIter < Job.countLimit →
          ∃ result, job.result elapsed = .ok result)

theorem Program.IsRelabelled.runs {names : Equiv.Perm (Fin n)} {p p' : Program ℝ n}
    (hnames : p.IsRelabelled names p') (hsymmetric : p.Symmetric) :
    p.RunsRelabelled names p' := by
  intro penalty settings rho start hpenalty hsettings hrho
  obtain ⟨system, hsystem⟩ :=
    WeightSystem.exists_ofMatrix? p (hsettings.rhoFor_pos p)
  obtain ⟨system', hsystem'⟩ :=
    WeightSystem.exists_ofMatrix? p' (hsettings.rhoFor_pos p')
  obtain ⟨hquadratic, hrho_eq⟩ := WeightSystem.ofMatrix?_eq_some hsystem
  obtain ⟨hquadratic', hrho_eq'⟩ := WeightSystem.ofMatrix?_eq_some hsystem'
  have hsame : system'.rho = system.rho := by
    rw [hrho_eq, hrho_eq', Settings.rhoFor, Settings.rhoFor, hrho]
    rfl
  have hpos : 0 < system.rho := hrho_eq ▸ hsettings.rhoFor_pos p
  refine ⟨_, _, Job.ofProgram?_of_system hsystem penalty start,
    Job.ofProgram?_of_system hsystem' penalty (Vec.relabel names start), ?_⟩
  intro elapsed
  constructor
  · have hreads : (Job.mk p penalty settings system start).ReadsAs (Vec.relabel names) id
        elapsed ⟨p', penalty, settings, system', Vec.relabel names start⟩ elapsed := by
      constructor
      case advance =>
        exact State.advance_relabel names hnames hsymmetric hpenalty.falls hquadratic
          hquadratic' hsame hpos
      case start => simp [State.start, State.map]
      case value => exact Penalty.value_relabel names penalty
      case rho => exact hsame
      case stop => exact fun _ _ => rfl
      case maxIter => rfl
    rw [← Result.map_relabel]
    exact hreads.result_eq (Settings.accepted_iff.mp hsettings).1
  · intro hn hcount
    exact Job.exists_result_of_pos _ hn hcount elapsed

/-- Other names for the weights rename the answer and change nothing else. A
regression is renamed in the columns of its design, and a portfolio with a
symmetric covariance in the rows and columns of that and in its means; either is
let through as it was before. Even first weights, which stand for absent ones,
are the same under all names. -/
theorem run_relabel :
    (∀ (X Y : Tensor ℝ) (m : ℕ) (design : Mat ℝ m n) (p : Program ℝ n),
      Program.designOf X = .ok ⟨m, n, design⟩ →
      Program.regression (.ok X) (.ok Y) = .ok ⟨n, p⟩ →
      ∃ p' : Program ℝ n,
        Program.regression (.ok (.ofMat (Mat.relabelColumns names design))) (.ok Y) =
          .ok ⟨n, p'⟩ ∧ p.RunsRelabelled names p') ∧
    (∀ (Sigma mu : Tensor ℝ) (phi : ℝ) (tolerance : Option ℝ) (covariance : Mat ℝ n n)
      (mean : Vec ℝ n) (p : Program ℝ n),
      Program.covarianceOf Sigma = .ok ⟨n, covariance⟩ →
      Program.vectorOf "mu" mu = .ok ⟨n, mean⟩ →
      (Mat.toMatrix covariance).IsSymm →
      Program.portfolio (.ok Sigma) (.ok mu) (.ok phi) (.ok tolerance) = .ok ⟨n, p⟩ →
      ∃ p' : Program ℝ n,
        Program.portfolio (.ok (.ofMat (Mat.relabel names covariance)))
          (.ok (.ofVec (Vec.relabel names mean))) (.ok phi) (.ok tolerance) =
          .ok ⟨n, p'⟩ ∧ p.RunsRelabelled names p') ∧
    Vec.relabel names (evenWeights n : Vec ℝ n) = evenWeights n := by
  refine ⟨?_, ?_, Vec.relabel_replicate names _⟩
  · intro X Y m design p hdesign hp
    obtain ⟨p', hp', hnames⟩ := Program.exists_regression_relabel names hdesign hp
    exact ⟨p', hp', hnames.runs (Program.Accepted.regression X Y hp).symmetric⟩
  · intro Sigma mu phi tolerance covariance mean p hcovariance hmean hsymmetric hp
    obtain ⟨p', hp', hnames⟩ :=
      Program.exists_portfolio_relabel names hcovariance hmean hsymmetric hp
    exact ⟨p', hp', hnames.runs (Program.Accepted.portfolio Sigma mu phi tolerance
      covariance hcovariance hsymmetric hp).symmetric⟩

/-- On two weights, with the roles of the two exchanged: a regression, and a
portfolio with an aversion of two. -/
theorem run_relabel_pair :
    (∃ p p' : Program ℝ 2,
      Program.regression (.ok (.ofMat pairDesign)) (.ok (.ofVec pairResponse)) =
        .ok ⟨2, p⟩ ∧
      Program.regression
        (.ok (.ofMat (Mat.relabelColumns (Equiv.swap 0 1) pairDesign)))
        (.ok (.ofVec pairResponse)) = .ok ⟨2, p'⟩ ∧
      ∃ job job', Job.ofProgram? p pairPenalty pairSettings #v[1, 0] = some job ∧
        Job.ofProgram? p' pairPenalty pairSettings #v[0, 1] = some job' ∧
        ∃ result, job.result 0 = .ok result ∧ result.w = #v[4 / 5, 0] ∧
          job'.result 0 = .ok (result.relabel (Equiv.swap 0 1))) ∧
    ∃ p p' : Program ℝ 2,
      Program.portfolio (.ok (.ofMat pairDesign)) (.ok (.ofVec pairResponse)) (.ok 2)
        (.ok none) = .ok ⟨2, p⟩ ∧
      Program.portfolio (.ok (.ofMat (Mat.relabel (Equiv.swap 0 1) pairDesign)))
        (.ok (.ofVec (Vec.relabel (Equiv.swap 0 1) pairResponse))) (.ok 2) (.ok none) =
        .ok ⟨2, p'⟩ ∧
      ∃ job job', Job.ofProgram? p pairPenalty pairSettings #v[1, 0] = some job ∧
        Job.ofProgram? p' pairPenalty pairSettings #v[0, 1] = some job' ∧
        ∃ result, job.result 0 = .ok result ∧
          job'.result 0 = .ok (result.relabel (Equiv.swap 0 1)) := by
  have hpenalty := pairPenalty_falls.accepted two_pos
  obtain ⟨hregression, hportfolio, _⟩ := run_relabel (Equiv.swap (0 : Fin 2) 1)
  constructor
  · obtain ⟨p, hobjective, hbuilt⟩ := Program.exists_regression pairDesign pairResponse
      (by simp [pairDesign_toMatrix])
    obtain ⟨p', hbuilt', hruns⟩ := hregression _ _ 2 pairDesign p
      (Program.designOf_ofMat pairDesign) hbuilt
    obtain ⟨job, job', hjob, hjob', hsame⟩ := hruns pairPenalty pairSettings 1 #v[1, 0]
      hpenalty pairSettings_accepted rfl
    obtain ⟨system, _, rfl⟩ := Job.ofProgram?_eq_some hjob
    have hpair : Job.IsPair ⟨p, pairPenalty, pairSettings, system, #v[1, 0]⟩ :=
      ⟨⟨.regression _ _ hbuilt, hpenalty, pairSettings_accepted, hjob⟩, hobjective, rfl,
        rfl, rfl⟩
    obtain ⟨result, hresult, _, hw, _⟩ := hpair.exists_result 0
    refine ⟨p, p', hbuilt, hbuilt', _, job', hjob, hjob', result, hresult, hw, ?_⟩
    rw [(hsame 0).1, hresult]
    rfl
  · obtain ⟨p, hobjective⟩ := exists_pairPortfolio
    have htolerance : ∀ t : ℝ, none = some t → 0 ≤ t := by
      rintro t ⟨⟩
    have hbuilt := (Program.portfolio_ofMat_iff pairDesign_isSymm two_pos htolerance).mpr
      hobjective
    obtain ⟨p', hbuilt', hruns⟩ := hportfolio _ _ 2 none pairDesign pairResponse p
      (Program.covarianceOf_ofMat pairDesign) (Program.vectorOf_ofVec "mu" pairResponse)
      pairDesign_isSymm hbuilt
    obtain ⟨job, job', hjob, hjob', hsame⟩ := hruns pairPenalty pairSettings 1 #v[1, 0]
      hpenalty pairSettings_accepted rfl
    obtain ⟨result, hresult⟩ := (hsame 0).2 two_pos pairSettings_maxIter_lt
    refine ⟨p, p', hbuilt, hbuilt', job, job', hjob, hjob', result, hresult, ?_⟩
    rw [(hsame 0).1, hresult]
    rfl

end SparseWeights
