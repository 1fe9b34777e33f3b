import SparseWeights.Proofs.Linear.Relabel
import SparseWeights.Proofs.Program.Adapters

/-!
A portfolio in other units. Another unit for the objective multiplies expected
returns and the aversion to risk, and leaves the covariance alone. Matrix and
linear part of the program are measured like the objective, so a linear system
in the new unit has the old solution, and both objectives, primal and dual, take
their old values in the new unit.
-/

namespace SparseWeights

open Matrix

variable {n : ℕ} {unit : ℝ}

theorem Mat.mulVec_scale (A : Mat ℝ n n) (x : Vec ℝ n) :
    mulVec (scale unit A) x = Vec.scale unit (mulVec A x) := by
  apply Vec.eq_of_get
  intro i
  rw [mulVec_eq, toMatrix_scale, Matrix.smul_mulVec, Vec.get_scale, mulVec_eq]
  rfl

theorem Mat.scale_scale (a : ℝ) (A : Mat ℝ n n) :
    scale unit (scale a A) = scale (unit * a) A := by
  apply Vec.eq_of_get
  intro i
  apply Vec.eq_of_get
  intro j
  simp [scale, mul_assoc]

/-- A system in the new unit has the old solution. -/
theorem Factor.solve_scale {A : Mat ℝ n n} {L L' : Factor ℝ n}
    (h : ofMatrix? A = some L) (hA : (Mat.toMatrix A).IsSymm)
    (h' : ofMatrix? (Mat.scale unit A) = some L') (b : Vec ℝ n) :
    L'.solve (Vec.scale unit b) = L.solve b := by
  apply solve_eq_of_mulVec h' (Mat.isSymm_scale hA)
  rw [Mat.mulVec_scale]
  congr 1
  apply Vec.eq_of_get
  intro i
  rw [Mat.mulVec_eq, mulVec_solve_of_symmetric h hA]

namespace Program

/-- The second program is the first one in the unit of which the old one holds
so many. -/
structure InUnits (unit : ℝ) (p p' : Program ℝ n) : Prop where
  quadratic_eq : p'.quadratic = Mat.scale unit p.quadratic
  linear_eq : p'.linear = Vec.scale unit p.linear
  offset_eq : p'.objective.offset = unit * p.objective.offset

namespace InUnits

variable {p p' : Program ℝ n} (hunits : InUnits unit p p')

include hunits

theorem value_eq (w : Vec ℝ n) : p'.objective.value w = unit * p.objective.value w := by
  have hlinear : (Vec.scale unit p.linear).get = unit • p.linear.get :=
    funext (Vec.get_scale p.linear · unit)
  rw [Objective.value_eq, Objective.value_eq, ← p'.quadratic_eq, ← p'.linear_eq,
    hunits.quadratic_eq, hunits.linear_eq, hunits.offset_eq, Mat.toMatrix_scale, hlinear,
    Matrix.smul_mulVec, dotProduct_smul, smul_dotProduct, ← p.quadratic_eq, ← p.linear_eq]
  simp only [smul_eq_mul]
  ring

theorem dualPoint_eq (alpha : Vec ℝ n) (beta : ℝ) :
    p'.dualPoint (Vec.scale unit alpha) (unit * beta) =
      Vec.scale unit (p.dualPoint alpha beta) := by
  apply Vec.eq_of_get
  intro i
  simp only [dualPoint, hunits.linear_eq, Vec.get_map, Vec.get_sub, Vec.get_scale]
  ring

theorem dualObjective?_eq (hp : p.Symmetric) (alpha : Vec ℝ n) (beta : ℝ) :
    p'.dualObjective? (Vec.scale unit alpha) (unit * beta) =
      (p.dualObjective? alpha beta).map (unit * ·) := by
  set point := p.dualPoint alpha beta with hpoint
  have hfactor' : Factor.ofMatrix? (Mat.scale unit p.quadratic) = some p'.factor := by
    rw [← hunits.quadratic_eq, p'.factor_eq]
  have hdot (u : Vec ℝ n) : Vec.dot (Vec.scale unit point) u = unit * Vec.dot point u := by
    have hentries : (Vec.scale unit point).get = unit • point.get :=
      funext (Vec.get_scale point · unit)
    rw [Vec.dot_eq_dotProduct, hentries, smul_dotProduct, Vec.dot_eq_dotProduct, smul_eq_mul]
  simp only [dualObjective?, hunits.dualPoint_eq, ← hpoint, Factor.solve?_eq_some,
    Factor.solve_scale p.factor_eq hp hfactor', Option.bind_eq_bind, Option.bind_some,
    Option.map_some, dualValue, hdot, hunits.offset_eq]
  congr 1
  ring

end InUnits

theorem vectorOf_map {name : String} {t : Tensor ℝ} {v : Vec ℝ n}
    (h : vectorOf name t = .ok ⟨n, v⟩) (f : ℝ → ℝ) :
    vectorOf name (t.map f) = .ok ⟨n, v.map f⟩ := by
  unfold vectorOf at h ⊢
  rw [Tensor.vector?_map]
  cases hread : t.vector? with
  | none =>
      rw [hread] at h
      cases h
  | some u =>
      simp only [hread, Vec.allFinite_real, if_true] at h
      cases h
      simp [Vec.allFinite_real]

theorem exists_portfolio_inUnits (hunit : 0 < unit) {Sigma mu : Tensor ℝ} {phi : ℝ}
    {tolerance : Option ℝ} {covariance : Mat ℝ n n} {p : Program ℝ n}
    (hcovariance : covarianceOf Sigma = .ok ⟨n, covariance⟩)
    (hsymmetric : (Mat.toMatrix covariance).IsSymm)
    (hp : portfolio (.ok Sigma) (.ok mu) (.ok phi) (.ok tolerance) = .ok ⟨n, p⟩) :
    ∃ p', portfolio (.ok Sigma) (.ok (mu.map (unit * ·))) (.ok (unit * phi))
      (.ok tolerance) = .ok ⟨n, p'⟩ ∧ InUnits unit p p' := by
  obtain ⟨n', covariance', mean, hread, htolerance, hmean, hphi, hbuilt⟩ :=
    portfolio_eq_ok_iff.mp hp
  rw [hcovariance] at hread
  cases hread
  obtain ⟨q, hq, hsized⟩ := ofObjective_eq_ok_iff.mp hbuilt
  cases hsized
  have hobjective := ofObjective?_objective hq
  have hquadratic : p.quadratic = Mat.scale phi covariance := by
    rw [p.quadratic_eq, hobjective, Objective.quadratic]
  set objective : Objective ℝ n :=
    .meanVariance covariance (Vec.scale unit mean) (unit * phi) with hscaled
  have hquadratic' : objective.quadratic = Mat.scale unit p.quadratic := by
    rw [hscaled, Objective.quadratic, hquadratic, Mat.scale_scale]
  have hp_symmetric : p.Symmetric :=
    (Accepted.portfolio Sigma mu phi tolerance covariance hcovariance hsymmetric hp).symmetric
  have hpos : ∀ x : Fin n → ℝ, x ≠ 0 →
      0 < x ⬝ᵥ (Mat.toMatrix objective.quadratic *ᵥ x) := by
    intro x hx
    rw [hquadratic', Mat.toMatrix_scale, Matrix.smul_mulVec, dotProduct_smul, smul_eq_mul]
    exact mul_pos hunit (Factor.quadratic_pos_of_symmetric p.factor_eq hp_symmetric hx)
  obtain ⟨p', hobjective', hp'⟩ := exists_ofObjective? objective
    (hquadratic' ▸ Mat.isSymm_scale hp_symmetric) hpos
  refine ⟨p', portfolio_eq_ok_iff.mpr ⟨n, covariance, _, hcovariance, htolerance,
    vectorOf_map hmean _, ?_, ofObjective_eq_ok_iff.mpr ⟨p', hp', rfl⟩⟩, ?_, ?_, ?_⟩
  · have hphi : 0 < phi := by simpa [Scalar.isPositive] using hphi
    simpa [Scalar.isPositive] using mul_pos hunit hphi
  · rw [p'.quadratic_eq, hobjective', hquadratic']
  · rw [p'.linear_eq, hobjective', p.linear_eq, hobjective, hscaled, Objective.linear,
      Objective.linear]
  · rw [hobjective', hobjective, hscaled, Objective.offset, Objective.offset, mul_zero]

end Program

end SparseWeights
