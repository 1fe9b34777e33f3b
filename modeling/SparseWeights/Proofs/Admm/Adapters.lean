import SparseWeights.Proofs.Admm.Agreement
import SparseWeights.Proofs.Program.Adapters

/-!
Runs on one problem through two adapters. Programs that differ by an offset go
through the same states, since no update of an iteration reads the objective;
what is recorded differs by the offset in the two objectives and in the gap that
is relative to one of them, and nowhere else. The two runs may therefore stop at
different iterations. Without an offset they are the same.
-/

namespace SparseWeights

variable {n : ℕ}

/-- Two iterations on programs that differ by an offset: the same weights,
multipliers and residuals, and objectives that differ by the offset. -/
structure Step.OffsetBy (offset : ℝ) (step step' : Step ℝ n) : Prop where
  w_eq : step.w = step'.w
  next_eq : step.next = step'.next
  primal_eq : step.record.primal = step'.record.primal + offset
  dual_eq : step.record.dual = step'.record.dual + offset
  primalResidual_eq : step.record.primalResidual = step'.record.primalResidual
  dualResidual_eq : step.record.dualResidual = step'.record.dualResidual

theorem Step.OffsetBy.abs_sub_eq {offset : ℝ} {step step' : Step ℝ n}
    (hsteps : Step.OffsetBy offset step step') :
    |step.record.primal - step.record.dual| =
      |step'.record.primal - step'.record.dual| := by
  rw [hsteps.primal_eq, hsteps.dual_eq, add_sub_add_right_eq_sub]

section Offset

variable {offset : ℝ}

/-- An iteration on the one program has its counterpart on the other. -/
theorem State.advance_offsetBy {p p' : Program ℝ n} (hoffset : p.OffsetBy offset p')
    {penalty : Penalty ℝ n} {system : WeightSystem ℝ n} {i : ℕ} {s : State ℝ n}
    {step : Step ℝ n} (hstep : s.advance p penalty system i = .ok step) :
    ∃ step', s.advance p' penalty system i = .ok step' ∧
      Step.OffsetBy offset step step' := by
  simp only [State.advance, hoffset.linear_eq, hoffset.dualObjective?_eq] at hstep ⊢
  cases hw : system.solve? (s.rightSide p'.linear system.rho) with
  | none =>
      rw [hw] at hstep
      cases hstep
  | some w =>
      simp only [hw] at hstep ⊢
      set next := s.updated penalty system.rho w with hnext
      cases hdual : p'.dualObjective? next.alpha next.beta with
      | none =>
          rw [hdual] at hstep
          cases hstep
      | some dual =>
          simp only [hdual, Option.map_some] at hstep ⊢
          split at hstep
          · cases hstep
          · rename_i hn
            obtain rfl := Except.ok.inj hstep
            rw [if_neg hn]
            refine ⟨_, rfl, rfl, rfl, ?_, rfl, rfl, rfl⟩
            simp only [measure, hoffset.value_eq]
            ring

/-- Without an offset the counterpart is the same iteration. -/
theorem State.advance_eq_of_offsetBy_zero {p p' : Program ℝ n} (hoffset : p.OffsetBy 0 p')
    (penalty : Penalty ℝ n) (system : WeightSystem ℝ n) (s : State ℝ n) (i : ℕ) :
    s.advance p penalty system i = s.advance p' penalty system i := by
  have hvalue (w : Vec ℝ n) : p.objective.value w = p'.objective.value w := by
    rw [hoffset.value_eq, add_zero]
  have hdual (alpha : Vec ℝ n) (beta : ℝ) :
      p.dualObjective? alpha beta = p'.dualObjective? alpha beta := by
    simp [hoffset.dualObjective?_eq]
  simp only [State.advance, measure, hoffset.linear_eq, hvalue, hdual]

variable {p p' : Program ℝ n} {penalty : Penalty ℝ n} {system : WeightSystem ℝ n}
  {settings settings' : Settings ℝ} {start : Vec ℝ n}

/-- The two jobs go through the same states. -/
theorem Job.inStep_of_offsetBy (hoffset : p.OffsetBy offset p') :
    InStep (· = ·) (Step.OffsetBy offset) ⟨p, penalty, settings, system, start⟩
      ⟨p', penalty, settings', system, start⟩ where
  start := rfl
  advance := by
    rintro i s _ step rfl hstep
    exact State.advance_offsetBy hoffset hstep
  next := fun hsteps => hsteps.next_eq

end Offset

/-- Two jobs whose iterations differ by an offset: all of them, and those that
both runs record. The runs go along these iterations. -/
structure Job.OffsetBy (offset : ℝ) (job job' : Job ℝ n) : Prop where
  steps : 0 < n → ∀ i, ∃ step step', job.stepAfter i = .ok step ∧
    job'.stepAfter i = .ok step' ∧ Step.OffsetBy offset step step'
  records : ∀ (elapsed elapsed' : ℕ → ℝ) (i : ℕ) (r r' : Record ℕ ℝ),
    (job.trace elapsed).records[i]? = some r →
    (job'.trace elapsed').records[i]? = some r' →
    ∃ step step', job.stepAfter i = .ok step ∧ step.record = r ∧
      job'.stepAfter i = .ok step' ∧ step'.record = r' ∧
      Step.OffsetBy offset step step' ∧ |r.primal - r.dual| = |r'.primal - r'.dual|
  runs : ∀ elapsed, job.RunsAlong elapsed ∧ job'.RunsAlong elapsed

section Jobs

variable {offset : ℝ} {p p' : Program ℝ n} {settings settings' : Settings ℝ}

/-- The jobs on two programs that differ by an offset, with the same step size. -/
theorem Job.exists_offsetBy (hoffset : p.OffsetBy offset p') (penalty : Penalty ℝ n)
    (hsettings : settings.Accepted)
    (hrho : settings.rhoFor p = settings'.rhoFor p') (start : Vec ℝ n) :
    ∃ job job', Job.ofProgram? p penalty settings start = some job ∧
      Job.ofProgram? p' penalty settings' start = some job' ∧
      job.OffsetBy offset job' := by
  obtain ⟨system, hsystem⟩ :=
    WeightSystem.exists_ofMatrix? p (hsettings.rhoFor_pos p)
  have hsystem' : WeightSystem.ofMatrix? p'.quadratic (settings'.rhoFor p') =
      some system := by
    rw [← hoffset.quadratic_eq, ← hrho, hsystem]
  have hinStep : InStep (· = ·) (Step.OffsetBy offset)
      ⟨p, penalty, settings, system, start⟩ ⟨p', penalty, settings', system, start⟩ :=
    inStep_of_offsetBy hoffset
  refine ⟨_, _, ofProgram?_of_system hsystem penalty start,
    ofProgram?_of_system hsystem' penalty start, hinStep.exists_steps, ?_,
    fun elapsed => ⟨runsAlong _ elapsed, runsAlong _ elapsed⟩⟩
  intro elapsed elapsed' i r r' hr hr'
  obtain ⟨step, step', hstep, rfl, hstep', rfl, hsteps⟩ :=
    hinStep.exists_steps_of_getElem? hr hr'
  exact ⟨step, step', hstep, rfl, hstep', rfl, hsteps, hsteps.abs_sub_eq⟩

/-- Without an offset the jobs come to the same answer. -/
theorem Job.exists_same_result (hoffset : p.OffsetBy 0 p') (penalty : Penalty ℝ n)
    (hsettings : settings.Accepted) (hrho : settings.rhoFor p = settings.rhoFor p')
    (start : Vec ℝ n) :
    ∃ job job', Job.ofProgram? p penalty settings start = some job ∧
      Job.ofProgram? p' penalty settings start = some job' ∧
      ∀ elapsed, job.result elapsed = job'.result elapsed ∧
        (0 < n → settings.maxIter < countLimit →
          ∃ result, job.result elapsed = .ok result) := by
  obtain ⟨system, hsystem⟩ :=
    WeightSystem.exists_ofMatrix? p (hsettings.rhoFor_pos p)
  have hsystem' : WeightSystem.ofMatrix? p'.quadratic (settings.rhoFor p') =
      some system := by
    rw [← hoffset.quadratic_eq, ← hrho, hsystem]
  refine ⟨_, _, ofProgram?_of_system hsystem penalty start,
    ofProgram?_of_system hsystem' penalty start, ?_⟩
  intro elapsed
  constructor
  · apply result_congr ⟨p, penalty, settings, system, start⟩
      ⟨p', penalty, settings, system, start⟩
    · exact State.advance_eq_of_offsetBy_zero hoffset penalty system
    · exact fun _ => rfl
    · rfl
    · rfl
    · rfl
  · intro hn hcount
    exact exists_result_of_pos _ hn hcount elapsed

end Jobs

open Matrix in
/-- The two adapters agree. A regression on independent columns and the portfolio
of its normal equations go through the same weights, multipliers and residuals,
and their objectives differ by half the square of the response. A portfolio and
that of the scaled covariance are let through together, and then their runs with
the same step size are the same. -/
theorem adapters_agree {tolerance : Option ℝ}
    (htolerance : ∀ t, tolerance = some t → 0 ≤ t) :
    (∀ (m n : ℕ) (X : Mat ℝ m n) (Y : Vec ℝ m),
      (∀ x : Fin n → ℝ, Mat.toMatrix X *ᵥ x = 0 → x = 0) →
      ∃ p p' : Program ℝ n,
        Program.regression (.ok (.ofMat X)) (.ok (.ofVec Y)) = .ok ⟨n, p⟩ ∧
        Program.portfolio (.ok (.ofMat (Mat.gram X)))
          (.ok (.ofVec (Mat.mulVec (Mat.transpose X) Y))) (.ok 1) (.ok tolerance) =
            .ok ⟨n, p'⟩ ∧
        ∀ (penalty : Penalty ℝ n) (settings settings' : Settings ℝ) (start : Vec ℝ n),
          settings.Accepted → settings'.Accepted →
          settings.rhoFor p = settings'.rhoFor p' →
          ∃ job job', Job.ofProgram? p penalty settings start = some job ∧
            Job.ofProgram? p' penalty settings' start = some job' ∧
            job.OffsetBy (1 / 2 * Vec.dot Y Y) job') ∧
    ∀ (n : ℕ) (Sigma : Mat ℝ n n) (mu : Vec ℝ n) (phi : ℝ),
      (Mat.toMatrix Sigma).IsSymm → 0 < phi →
      ((∃ p : Program ℝ n, Program.portfolio (.ok (.ofMat Sigma)) (.ok (.ofVec mu))
          (.ok phi) (.ok tolerance) = .ok ⟨n, p⟩) ↔
        ∃ p : Program ℝ n, Program.portfolio (.ok (.ofMat (Mat.scale phi Sigma)))
          (.ok (.ofVec mu)) (.ok 1) (.ok tolerance) = .ok ⟨n, p⟩) ∧
      ∀ p p' : Program ℝ n,
        Program.portfolio (.ok (.ofMat Sigma)) (.ok (.ofVec mu)) (.ok phi)
          (.ok tolerance) = .ok ⟨n, p⟩ →
        Program.portfolio (.ok (.ofMat (Mat.scale phi Sigma))) (.ok (.ofVec mu)) (.ok 1)
          (.ok tolerance) = .ok ⟨n, p'⟩ →
        ∀ (penalty : Penalty ℝ n) (settings : Settings ℝ) (start : Vec ℝ n),
          settings.Accepted → settings.rhoFor p = settings.rhoFor p' →
          ∃ job job', Job.ofProgram? p penalty settings start = some job ∧
            Job.ofProgram? p' penalty settings start = some job' ∧
            ∀ elapsed, job.result elapsed = job'.result elapsed ∧
              (0 < n → settings.maxIter < Job.countLimit →
                ∃ result, job.result elapsed = .ok result) := by
  constructor
  · intro m n X Y hindependent
    obtain ⟨p, hp, hbuilt⟩ := Program.exists_regression X Y hindependent
    have hquadratic : (Objective.leastSquares X Y).quadratic =
        (Objective.meanVariance (Mat.gram X) (Mat.mulVec (Mat.transpose X) Y)
          1).quadratic := (Mat.scale_one _).symm
    obtain ⟨p', hp'⟩ := (Program.exists_objective_iff hquadratic).mp ⟨p, hp⟩
    have hoffset := Program.offsetBy_of_normalEquations hp hp'
    refine ⟨p, p', hbuilt, ?_, ?_⟩
    · exact (Program.portfolio_ofMat_iff (Mat.gram_isSymm X) one_pos htolerance).mpr hp'
    · intro penalty settings settings' start hsettings _ hrho
      exact Job.exists_offsetBy hoffset penalty hsettings hrho start
  · intro n Sigma mu phi hsymmetric hphi
    have hscaled : (Mat.toMatrix (Mat.scale phi Sigma)).IsSymm := by
      rw [Mat.toMatrix_scale]
      exact hsymmetric.smul phi
    simp only [Program.portfolio_ofMat_iff hsymmetric hphi htolerance,
      Program.portfolio_ofMat_iff hscaled one_pos htolerance]
    refine ⟨Program.exists_objective_iff (Mat.scale_one _).symm, ?_⟩
    intro p p' hp hp' penalty settings start hsettings hrho
    exact Job.exists_same_result (Program.offsetBy_of_scaled hp hp') penalty hsettings
      hrho start

theorem pairDesign_isSymm : (Mat.toMatrix pairDesign).IsSymm := by
  rw [pairDesign_toMatrix]
  exact Matrix.isSymm_one

open Matrix in
theorem exists_pairPortfolio :
    ∃ p : Program ℝ 2, p.objective = .meanVariance pairDesign pairResponse 2 := by
  set objective : Objective ℝ 2 := .meanVariance pairDesign pairResponse 2 with hobjective
  have hquadratic : Mat.toMatrix objective.quadratic = (2 : ℝ) • 1 := by
    rw [hobjective, Objective.quadratic, Mat.toMatrix_scale, pairDesign_toMatrix]
  have hpos : ∀ x : Fin 2 → ℝ, x ≠ 0 →
      0 < x ⬝ᵥ (Mat.toMatrix objective.quadratic *ᵥ x) := by
    intro x hx
    rw [hquadratic, Matrix.smul_mulVec, Matrix.one_mulVec, dotProduct_smul, smul_eq_mul]
    exact mul_pos two_pos (dotProduct_self_pos hx)
  obtain ⟨p, hp, _⟩ := Program.exists_ofObjective? objective
    (hquadratic ▸ Matrix.isSymm_one.smul 2) hpos
  exact ⟨p, hp⟩

/-- On two weights: the regression with the portfolio of its normal equations, and
the portfolio with an aversion of two with that of the doubled covariance. -/
theorem adapters_agree_pair :
    (∃ p p' : Program ℝ 2,
      Program.regression (.ok (.ofMat pairDesign)) (.ok (.ofVec pairResponse)) =
        .ok ⟨2, p⟩ ∧
      Program.portfolio (.ok (.ofMat (Mat.gram pairDesign)))
        (.ok (.ofVec (Mat.mulVec (Mat.transpose pairDesign) pairResponse))) (.ok 1)
        (.ok (some (1 / 10))) = .ok ⟨2, p'⟩ ∧
      ∃ job job', Job.ofProgram? p pairPenalty pairSettings #v[1, 0] = some job ∧
        Job.ofProgram? p' pairPenalty pairSettings #v[1, 0] = some job' ∧
        ∃ step step', job.stepAfter 0 = .ok step ∧ job'.stepAfter 0 = .ok step' ∧
          step.w = step'.w ∧ step.record.primal = step'.record.primal + 1 / 2) ∧
    ∃ p p' : Program ℝ 2,
      Program.portfolio (.ok (.ofMat pairDesign)) (.ok (.ofVec pairResponse)) (.ok 2)
        (.ok (some (1 / 10))) = .ok ⟨2, p⟩ ∧
      Program.portfolio (.ok (.ofMat (Mat.scale 2 pairDesign)))
        (.ok (.ofVec pairResponse)) (.ok 1) (.ok (some (1 / 10))) = .ok ⟨2, p'⟩ ∧
      ∃ job job', Job.ofProgram? p pairPenalty pairSettings #v[1, 0] = some job ∧
        Job.ofProgram? p' pairPenalty pairSettings #v[1, 0] = some job' ∧
        ∃ result, job.result 0 = .ok result ∧ job'.result 0 = .ok result := by
  have htolerance : ∀ t : ℝ, some (1 / 10 : ℝ) = some t → 0 ≤ t := by
    rintro t ⟨⟩
    norm_num
  have hcount : pairSettings.maxIter < Job.countLimit := by
    change 10 < Job.countLimit
    decide
  obtain ⟨hregression, hportfolio⟩ := adapters_agree htolerance
  constructor
  · obtain ⟨p, p', hp, hp', hruns⟩ := hregression 2 2 pairDesign pairResponse
      (by simp [pairDesign_toMatrix])
    obtain ⟨job, job', hjob, hjob', hsame⟩ := hruns pairPenalty pairSettings pairSettings
      #v[1, 0] pairSettings_accepted pairSettings_accepted rfl
    obtain ⟨step, step', hstep, hstep', hsteps⟩ := hsame.steps two_pos 0
    have hprimal := hsteps.primal_eq
    rw [pairResponse, pair_dot] at hprimal
    norm_num at hprimal
    exact ⟨p, p', hp, hp', job, job', hjob, hjob', step, step', hstep, hstep',
      hsteps.w_eq, hprimal⟩
  · obtain ⟨hbuilt, hruns⟩ := hportfolio 2 pairDesign pairResponse 2 pairDesign_isSymm
      two_pos
    obtain ⟨p, hobjective⟩ := exists_pairPortfolio
    have hp := (Program.portfolio_ofMat_iff pairDesign_isSymm two_pos htolerance).mpr hobjective
    obtain ⟨p', hp'⟩ := hbuilt.mp ⟨p, hp⟩
    obtain ⟨job, job', hjob, hjob', hsame⟩ := hruns p p' hp hp' pairPenalty pairSettings
      #v[1, 0] pairSettings_accepted rfl
    obtain ⟨heq, hexists⟩ := hsame 0
    obtain ⟨result, hresult⟩ := hexists two_pos hcount
    exact ⟨p, p', hp, hp', job, job', hjob, hjob', result, hresult, heq ▸ hresult⟩

end SparseWeights
