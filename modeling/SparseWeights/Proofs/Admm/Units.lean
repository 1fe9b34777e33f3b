import SparseWeights.Proofs.Admm.Adapters
import SparseWeights.Proofs.Penalty.Units
import SparseWeights.Proofs.Program.Units

/-!
A run in other units. Every update of an iteration reads the step size: as a
factor in the right side, as a divisor in the argument of the proximal map and
in its step, and once more in the matrix. With expected returns, aversion to
risk, factors and step size in the new unit all of these agree: the weights stay
what they are, and the multipliers, the objectives and the dual residual are
measured in the new unit. Where a run stops may differ, since the tolerances are
compared with numbers of both sorts.
-/

namespace SparseWeights

variable {n : ℕ}

/-- An iteration of the second job is one of the first in the unit of which the
old one holds so many. -/
structure Step.InUnits (unit : ℝ) (step step' : Step ℝ n) : Prop where
  w_eq : step'.w = step.w
  v_eq : step'.next.v = step.next.v
  alpha_eq : step'.next.alpha = Vec.scale unit step.next.alpha
  beta_eq : step'.next.beta = unit * step.next.beta
  primal_eq : step'.record.primal = unit * step.record.primal
  dual_eq : step'.record.dual = unit * step.record.dual
  primalResidual_eq : step'.record.primalResidual = step.record.primalResidual
  dualResidual_eq : step'.record.dualResidual = unit * step.record.dualResidual

/-- The iterations of the second job are those of the first in another unit: all
of them, and those that both runs record. The runs go along these iterations. -/
structure Job.InUnits (unit : ℝ) (job job' : Job ℝ n) : Prop where
  steps : 0 < n → ∀ i, ∃ step step', job.stepAfter i = .ok step ∧
    job'.stepAfter i = .ok step' ∧ Step.InUnits unit step step'
  records : ∀ (elapsed elapsed' : ℕ → ℝ) (i : ℕ) (r r' : Record ℕ ℝ),
    (job.trace elapsed).records[i]? = some r →
    (job'.trace elapsed').records[i]? = some r' →
    ∃ step step', job.stepAfter i = .ok step ∧ step.record = r ∧
      job'.stepAfter i = .ok step' ∧ step'.record = r' ∧ Step.InUnits unit step step'
  runs : ∀ elapsed, job.RunsAlong elapsed ∧ job'.RunsAlong elapsed

/-- The matrix of the weight update is measured like its parts. -/
theorem Mat.shifted_scale (unit : ℝ) (Q : Mat ℝ n n) (rho : ℝ) :
    shifted (scale unit Q) (unit * rho) = scale unit (shifted Q rho) := by
  apply Vec.eq_of_get
  intro i
  apply Vec.eq_of_get
  intro j
  simp only [shifted, scale, ofFn, Vec.get_ofFn, Vec.get_map, Vec.get_scale]
  ring

theorem WeightSystem.solve?_scale {Q : Mat ℝ n n} (hQ : (Mat.toMatrix Q).IsSymm)
    {unit rho : ℝ} {system system' : WeightSystem ℝ n}
    (hsystem : ofMatrix? Q rho = some system)
    (hsystem' : ofMatrix? (Mat.scale unit Q) (unit * rho) = some system') (b : Vec ℝ n) :
    system'.solve? (Vec.scale unit b) = system.solve? b := by
  obtain ⟨hquadratic, hrho⟩ := ofMatrix?_eq_some hsystem
  obtain ⟨hquadratic', hrho'⟩ := ofMatrix?_eq_some hsystem'
  have hfactor := system.factor_eq
  have hfactor' := system'.factor_eq
  rw [hquadratic, hrho] at hfactor
  rw [hquadratic', hrho', Mat.shifted_scale] at hfactor'
  rw [solve?, solve?, Factor.solve?_eq_some, Factor.solve?_eq_some,
    Factor.solve_scale hfactor (Mat.shifted_isSymm hQ rho) hfactor']

namespace State

/-- The state in the unit of which the old one holds so many. -/
noncomputable def inUnits (unit : ℝ) (s : State ℝ n) : State ℝ n :=
  ⟨s.v, Vec.scale unit s.alpha, unit * s.beta⟩

variable {unit : ℝ}

theorem start_inUnits (w : Vec ℝ n) : (start w).inUnits unit = start w := by
  have hzero : Vec.scale unit (Vector.replicate n 0) = Vector.replicate n 0 := by
    simp [Vec.scale]
  rw [inUnits, start, hzero, mul_zero]

theorem rightSide_inUnits (linear : Vec ℝ n) (rho : ℝ) (s : State ℝ n) :
    (s.inUnits unit).rightSide (Vec.scale unit linear) (unit * rho) =
      Vec.scale unit (s.rightSide linear rho) := by
  apply Vec.eq_of_get
  intro i
  simp only [rightSide, inUnits, Vec.get_add, Vec.get_map, Vec.get_sub, Vec.get_scale]
  ring

/-- The argument of the proximal map has no unit, and neither has its step. -/
theorem updated_inUnits (hunit : unit ≠ 0) (penalty : Penalty ℝ n) (rho : ℝ)
    (s : State ℝ n) (w : Vec ℝ n) :
    (s.inUnits unit).updated (penalty.inUnits unit) (unit * rho) w =
      (s.updated penalty rho w).inUnits unit := by
  have hquotients : (Vec.scale unit s.alpha).map (fun x => x / (unit * rho)) =
      s.alpha.map fun x => x / rho := by
    apply Vec.eq_of_get
    intro i
    rw [Vec.get_map, Vec.get_scale, Vec.get_map, mul_div_mul_left _ _ hunit]
  have halpha (v : Vec ℝ n) :
      Vec.add (Vec.scale unit s.alpha) (Vec.scale (unit * rho) (Vec.sub w v)) =
        Vec.scale unit (Vec.add s.alpha (Vec.scale rho (Vec.sub w v))) := by
    apply Vec.eq_of_get
    intro i
    simp only [Vec.get_add, Vec.get_scale]
    ring
  simp only [updated, inUnits, hquotients, Penalty.prox_inUnits hunit, halpha]
  congr 1
  ring

end State

section Run

variable {unit : ℝ} {p p' : Program ℝ n} {rho : ℝ} {system system' : WeightSystem ℝ n}

/-- An iteration has its counterpart in the other unit. -/
theorem State.advance_inUnits (hunit : 0 < unit) (hp : p.Symmetric)
    (hunits : p.InUnits unit p') (penalty : Penalty ℝ n)
    (hsystem : WeightSystem.ofMatrix? p.quadratic rho = some system)
    (hsystem' : WeightSystem.ofMatrix? p'.quadratic (unit * rho) = some system') {i : ℕ}
    {s : State ℝ n} {step : Step ℝ n} (hstep : s.advance p penalty system i = .ok step) :
    ∃ step', (s.inUnits unit).advance p' (penalty.inUnits unit) system' i = .ok step' ∧
      Step.InUnits unit step step' := by
  obtain ⟨_, rfl⟩ := WeightSystem.ofMatrix?_eq_some hsystem
  have hrho := (WeightSystem.ofMatrix?_eq_some hsystem').2
  rw [hunits.quadratic_eq] at hsystem'
  have hsolve := WeightSystem.solve?_scale hp hsystem hsystem'
    (s.rightSide p.linear system.rho)
  rw [← rightSide_inUnits, ← hunits.linear_eq, ← hrho] at hsolve
  simp only [advance, hsolve] at hstep ⊢
  cases hw : system.solve? (s.rightSide p.linear system.rho) with
  | none =>
      rw [hw] at hstep
      cases hstep
  | some w =>
      have hnext : (s.inUnits unit).updated (penalty.inUnits unit) system'.rho w =
          (s.updated penalty system.rho w).inUnits unit := by
        rw [hrho, updated_inUnits hunit.ne']
      simp only [hw, hnext] at hstep ⊢
      set next := s.updated penalty system.rho w
      have hdual' : p'.dualObjective? (next.inUnits unit).alpha (next.inUnits unit).beta =
          (p.dualObjective? next.alpha next.beta).map (unit * ·) :=
        hunits.dualObjective?_eq hp next.alpha next.beta
      rw [hdual']
      cases hdual : p.dualObjective? next.alpha next.beta with
      | none =>
          rw [hdual] at hstep
          cases hstep
      | some dual =>
          simp only [hdual, Option.map_some] at hstep ⊢
          split at hstep
          · cases hstep
          · rename_i hn
            obtain rfl := Except.ok.inj hstep
            rw [if_neg hn]
            refine ⟨_, rfl, rfl, rfl, rfl, rfl, ?_, rfl, rfl, ?_⟩
            · simp only [measure, hunits.value_eq, Penalty.value_inUnits, mul_add]
            · exact Penalty.dualInfeasibility_inUnits hunit.le penalty next.alpha

variable {penalty : Penalty ℝ n} {settings settings' : Settings ℝ} {start : Vec ℝ n}

theorem Job.inStep_inUnits (hunit : 0 < unit) (hp : p.Symmetric)
    (hunits : p.InUnits unit p')
    (hsystem : WeightSystem.ofMatrix? p.quadratic rho = some system)
    (hsystem' : WeightSystem.ofMatrix? p'.quadratic (unit * rho) = some system') :
    InStep (fun s s' => s' = s.inUnits unit) (Step.InUnits unit)
      ⟨p, penalty, settings, system, start⟩
      ⟨p', penalty.inUnits unit, settings', system', start⟩ where
  start := (State.start_inUnits start).symm
  advance := by
    rintro i s _ step rfl hstep
    exact State.advance_inUnits hunit hp hunits penalty hsystem hsystem' hstep
  next := by
    intro step step' hsteps
    simp only [State.inUnits, ← hsteps.v_eq, ← hsteps.alpha_eq, ← hsteps.beta_eq]

/-- The jobs on one program in two units. -/
theorem Job.exists_inUnits (hunit : 0 < unit) (hp : p.Symmetric)
    (hunits : p.InUnits unit p') (penalty : Penalty ℝ n) (hsettings : settings.Accepted)
    (hsettings' : settings'.Accepted)
    (hrho : settings'.rhoFor p' = unit * settings.rhoFor p) (start : Vec ℝ n) :
    ∃ job job', ofProgram? p penalty settings start = some job ∧
      ofProgram? p' (penalty.inUnits unit) settings' start = some job' ∧
      job.InUnits unit job' := by
  obtain ⟨system, hsystem⟩ := WeightSystem.exists_ofMatrix? p (hsettings.rhoFor_pos p)
  obtain ⟨system', hsystem'⟩ := WeightSystem.exists_ofMatrix? p' (hsettings'.rhoFor_pos p')
  have hinStep : InStep (fun s s' => s' = s.inUnits unit) (Step.InUnits unit)
      ⟨p, penalty, settings, system, start⟩
      ⟨p', penalty.inUnits unit, settings', system', start⟩ :=
    inStep_inUnits hunit hp hunits hsystem (hrho ▸ hsystem')
  refine ⟨_, _, ofProgram?_of_system hsystem penalty start,
    ofProgram?_of_system hsystem' (penalty.inUnits unit) start, hinStep.exists_steps, ?_,
    fun elapsed => ⟨runsAlong _ elapsed, runsAlong _ elapsed⟩⟩
  intro elapsed elapsed' i r r' hr hr'
  exact hinStep.exists_steps_of_getElem? hr hr'

end Run

/-- Another unit for the objective changes no weights. If expected returns,
aversion to risk, factors and step size are multiplied by a positive number, then
problem and penalty are let through as before, and every iteration has the same
`w`, the same `v` and the same primal residual, while multipliers, objectives and
dual residual are multiplied by that number. -/
theorem run_inUnits {unit : ℝ} (hunit : 0 < unit) {Sigma mu : Tensor ℝ} {phi : ℝ}
    {tolerance : Option ℝ} {covariance : Mat ℝ n n} {p : Program ℝ n}
    (hcovariance : Program.covarianceOf Sigma = .ok ⟨n, covariance⟩)
    (hsymmetric : (Mat.toMatrix covariance).IsSymm)
    (hp : Program.portfolio (.ok Sigma) (.ok mu) (.ok phi) (.ok tolerance) = .ok ⟨n, p⟩)
    {kind : PenaltyKind} {lam : List ℝ} {dimension : Option Int} {spec : PenaltySpec ℝ}
    {penalty : Penalty ℝ n} (hspec : PenaltySpec.make kind lam dimension = .ok spec)
    (hpenalty : spec.fit n = .ok penalty) {settings settings' : Settings ℝ}
    (hsettings : settings.Accepted) (hsettings' : settings'.Accepted) {rho : ℝ}
    (hrho : settings.rho = some rho) (hrho' : settings'.rho = some (unit * rho))
    (start : Vec ℝ n) :
    ∃ (p' : Program ℝ n) (spec' : PenaltySpec ℝ) (penalty' : Penalty ℝ n),
      Program.portfolio (.ok Sigma) (.ok (mu.map (unit * ·))) (.ok (unit * phi))
        (.ok tolerance) = .ok ⟨n, p'⟩ ∧
      PenaltySpec.make kind (lam.map (unit * ·)) dimension = .ok spec' ∧
      spec'.fit n = .ok penalty' ∧
      ∃ job job', Job.ofProgram? p penalty settings start = some job ∧
        Job.ofProgram? p' penalty' settings' start = some job' ∧
        job.InUnits unit job' := by
  obtain ⟨p', hp', hunits⟩ :=
    Program.exists_portfolio_inUnits hunit hcovariance hsymmetric hp
  have hp_symmetric : p.Symmetric :=
    (Program.Accepted.portfolio Sigma mu phi tolerance covariance hcovariance hsymmetric
      hp).symmetric
  have hrhoFor : settings'.rhoFor p' = unit * settings.rhoFor p := by
    rw [Settings.rhoFor, Settings.rhoFor, hrho, hrho', Option.getD_some, Option.getD_some]
  refine ⟨p', spec.inUnits unit, penalty.inUnits unit, hp', ?_, ?_,
    Job.exists_inUnits hunit hp_symmetric hunits penalty hsettings hsettings' hrhoFor start⟩
  · rw [PenaltySpec.make_inUnits hunit, hspec]
    rfl
  · rw [PenaltySpec.fit_inUnits, hpenalty]
    rfl

/-- On two weights, with a third of the unit: the portfolio with an aversion of two
turns into one with an aversion of six, and its step size of one into three. -/
theorem run_inUnits_pair :
    ∃ (p p' : Program ℝ 2) (penalty penalty' : Penalty ℝ 2),
      Program.portfolio (.ok (.ofMat pairDesign)) (.ok (.ofVec pairResponse)) (.ok 2)
        (.ok none) = .ok ⟨2, p⟩ ∧
      Program.portfolio (.ok (.ofMat pairDesign))
        (.ok ((Tensor.ofVec pairResponse).map (3 * ·))) (.ok (3 * 2)) (.ok none) =
          .ok ⟨2, p'⟩ ∧
      (PenaltySpec.make .sortedL1 [1 / 5, 1 / 10] (some 2) >>= fun spec => spec.fit 2) =
        .ok penalty ∧
      (PenaltySpec.make .sortedL1 ([1 / 5, 1 / 10].map (3 * ·)) (some 2) >>= fun spec =>
        spec.fit 2) = .ok penalty' ∧
      ∃ job job', Job.ofProgram? p penalty pairSettings #v[1, 0] = some job ∧
        Job.ofProgram? p' penalty' { pairSettings with rho := some (3 * 1) } #v[1, 0] =
          some job' ∧
        ∀ i, ∃ step step', job.stepAfter i = .ok step ∧ job'.stepAfter i = .ok step' ∧
          step'.w = step.w ∧ step'.next.alpha = Vec.scale 3 step.next.alpha ∧
          step'.record.dual = 3 * step.record.dual := by
  obtain ⟨p, hobjective⟩ := exists_pairPortfolio
  have htolerance : ∀ t : ℝ, none = some t → 0 ≤ t := by
    rintro t ⟨⟩
  have hp := (Program.portfolio_ofMat_iff pairDesign_isSymm two_pos htolerance).mpr hobjective
  have hspec : PenaltySpec.make .sortedL1 [1 / 5, 1 / 10] (some 2) =
      .ok (.sortedL1 [1 / 5, (1 / 10 : ℝ)]) := by
    simp [PenaltySpec.make, PenaltySpec.ofFactors, PenaltySpec.ascends]
    norm_num
  have hsettings' : Settings.Accepted { pairSettings with rho := some (3 * 1) } := by
    simp [Settings.accepted_iff, pairSettings]
  obtain ⟨p', spec', penalty', hp', hspec', hpenalty', job, job', hjob, hjob', hunits⟩ :=
    run_inUnits three_pos (Program.covarianceOf_ofMat pairDesign) pairDesign_isSymm hp hspec
      rfl pairSettings_accepted hsettings' rfl rfl #v[1, 0]
  refine ⟨p, p', _, penalty', hp, hp', ?_, ?_, job, job', hjob, hjob', ?_⟩
  · rw [hspec]
    rfl
  · rw [hspec']
    exact hpenalty'
  · intro i
    obtain ⟨step, step', hstep, hstep', hsteps⟩ := hunits.steps two_pos i
    exact ⟨step, step', hstep, hstep', hsteps.w_eq, hsteps.alpha_eq, hsteps.dual_eq⟩

end SparseWeights
