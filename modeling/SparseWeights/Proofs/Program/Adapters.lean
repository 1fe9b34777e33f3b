import SparseWeights.Proofs.Program.Dual

/-!
One problem through two adapters. A regression is the portfolio of its normal
equations, but for an offset: half the square of the response, which is part of
its objective and of its dual objective. A portfolio with an aversion to risk is
the portfolio of the scaled covariance with aversion one. Programs that differ by
an offset have the same matrix, the same linear part and the same factor, so both
of their objectives differ by that offset wherever they are evaluated.
-/

namespace SparseWeights

open Matrix

variable {n : ℕ}

namespace Program

/-- The two programs differ by a constant. -/
structure OffsetBy (offset : ℝ) (p p' : Program ℝ n) : Prop where
  quadratic_eq : p.quadratic = p'.quadratic
  linear_eq : p.linear = p'.linear
  offset_eq : p.objective.offset = p'.objective.offset + offset

namespace OffsetBy

variable {offset : ℝ} {p p' : Program ℝ n} (hoffset : OffsetBy offset p p')

include hoffset

theorem factor_eq : p.factor = p'.factor := by
  have hfactor := p.factor_eq
  rw [hoffset.quadratic_eq, p'.factor_eq] at hfactor
  exact (Option.some.inj hfactor).symm

/-- The objectives differ by the offset, in whatever shape they are evaluated. -/
theorem value_eq (w : Vec ℝ n) :
    p.objective.value w = p'.objective.value w + offset := by
  rw [Objective.value_eq, Objective.value_eq, ← p.quadratic_eq, ← p'.quadratic_eq,
    ← p.linear_eq, ← p'.linear_eq, hoffset.quadratic_eq, hoffset.linear_eq,
    hoffset.offset_eq]
  ring

/-- So do the dual objectives. -/
theorem dualObjective?_eq (alpha : Vec ℝ n) (beta : ℝ) :
    p.dualObjective? alpha beta =
      (p'.dualObjective? alpha beta).map fun dual => dual + offset := by
  simp only [dualObjective?, dualPoint, hoffset.linear_eq, hoffset.factor_eq,
    Factor.solve?_eq_some, Option.bind_eq_bind, Option.bind_some, Option.map_some,
    dualValue, hoffset.offset_eq]
  congr 1
  ring

end OffsetBy

/-- A program is made of an objective exactly if it carries that objective. -/
theorem ofObjective?_eq_some_iff {objective : Objective ℝ n} {p : Program ℝ n} :
    ofObjective? objective = some p ↔ p.objective = objective := by
  constructor
  · exact ofObjective?_objective
  · rintro rfl
    obtain ⟨objective, quadratic, linear, factor, rfl, rfl, hfactor⟩ := p
    unfold ofObjective?
    simp only
    split
    · rename_i factor' hfactor'
      obtain rfl := Option.some.inj (hfactor'.symm.trans hfactor)
      rfl
    · rename_i hnone
      rw [hfactor] at hnone
      cases hnone

/-- Whether there is a program depends on the quadratic part only. -/
theorem exists_objective_iff {objective objective' : Objective ℝ n}
    (hquadratic : objective.quadratic = objective'.quadratic) :
    (∃ p : Program ℝ n, p.objective = objective) ↔
      ∃ p : Program ℝ n, p.objective = objective' := by
  have hcarry {o o' : Objective ℝ n} (h : o.quadratic = o'.quadratic) :
      (∃ p : Program ℝ n, p.objective = o) → ∃ p : Program ℝ n, p.objective = o' := by
    rintro ⟨p, rfl⟩
    exact ⟨⟨o', p.quadratic, o'.linear, p.factor, p.quadratic_eq.trans h, rfl,
      p.factor_eq⟩, rfl⟩
  exact ⟨hcarry hquadratic, hcarry hquadratic.symm⟩

/-- No tolerance is too small for a symmetric covariance. -/
theorem isSymmetricWithin_of_isSymm {covariance : Mat ℝ n n}
    (hsymmetric : (Mat.toMatrix covariance).IsSymm) {tolerance : ℝ}
    (htolerance : 0 ≤ tolerance) : isSymmetricWithin tolerance covariance = true := by
  have hscale : 0 ≤ tolerance * max 1 (Mat.maxAbs covariance) :=
    mul_nonneg htolerance (zero_le_one.trans (le_max_left _ _))
  simpa [isSymmetricWithin, Mat.asymmetry_eq_zero hsymmetric] using hscale

theorem portfolio_ofMat_iff {covariance : Mat ℝ n n} {mean : Vec ℝ n} {phi : ℝ}
    {tolerance : Option ℝ} {p : Program ℝ n}
    (hsymmetric : (Mat.toMatrix covariance).IsSymm) (hphi : 0 < phi)
    (htolerance : ∀ t, tolerance = some t → 0 ≤ t) :
    portfolio (.ok (Tensor.ofMat covariance)) (.ok (Tensor.ofVec mean)) (.ok phi)
        (.ok tolerance) = .ok ⟨n, p⟩ ↔
      p.objective = .meanVariance covariance mean phi := by
  rw [portfolio_eq_ok_iff, ← ofObjective?_eq_some_iff]
  constructor
  · rintro ⟨n', covariance', mean', hcovariance, _, hmean, _, hbuilt⟩
    rw [covarianceOf_ofMat] at hcovariance
    cases hcovariance
    rw [vectorOf_ofVec] at hmean
    cases hmean
    obtain ⟨q, hq, hsized⟩ := ofObjective_eq_ok_iff.mp hbuilt
    cases hsized
    exact hq
  · intro hp
    refine ⟨n, covariance, mean, covarianceOf_ofMat covariance, ?_,
      vectorOf_ofVec "mu" mean, ?_, ofObjective_eq_ok_iff.mpr ⟨p, hp, rfl⟩⟩
    · intro t ht
      exact isSymmetricWithin_of_isSymm hsymmetric (htolerance t ht)
    · simpa [Scalar.isPositive] using hphi

/-- A regression and the portfolio of its normal equations. -/
theorem offsetBy_of_normalEquations {m : ℕ} {X : Mat ℝ m n} {Y : Vec ℝ m}
    {p p' : Program ℝ n} (hp : p.objective = .leastSquares X Y)
    (hp' : p'.objective =
      .meanVariance (Mat.gram X) (Mat.mulVec (Mat.transpose X) Y) 1) :
    OffsetBy (1 / 2 * Vec.dot Y Y) p p' := by
  constructor
  · rw [p.quadratic_eq, p'.quadratic_eq, hp, hp', Objective.quadratic,
      Objective.quadratic, Mat.scale_one]
  · rw [p.linear_eq, p'.linear_eq, hp, hp', Objective.linear, Objective.linear]
  · rw [hp, hp', Objective.offset, Objective.offset, Scalar.half_eq, zero_add]

/-- A portfolio and that of the covariance scaled with the aversion to risk. -/
theorem offsetBy_of_scaled {covariance : Mat ℝ n n} {mean : Vec ℝ n} {phi : ℝ}
    {p p' : Program ℝ n} (hp : p.objective = .meanVariance covariance mean phi)
    (hp' : p'.objective = .meanVariance (Mat.scale phi covariance) mean 1) :
    OffsetBy 0 p p' := by
  constructor
  · rw [p.quadratic_eq, p'.quadratic_eq, hp, hp', Objective.quadratic,
      Objective.quadratic, Mat.scale_one]
  · rw [p.linear_eq, p'.linear_eq, hp, hp', Objective.linear, Objective.linear]
  · rw [hp, hp', Objective.offset, Objective.offset, zero_add]

end Program

end SparseWeights
