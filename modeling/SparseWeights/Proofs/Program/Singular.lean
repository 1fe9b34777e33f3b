import Mathlib.LinearAlgebra.FiniteDimensional.Lemmas
import SparseWeights.Proofs.Duality
import SparseWeights.Proofs.Program.Adapters

/-!
Which problems are refused for want of a factor. The form of a symmetric matrix
decides it: there is a program unless some direction has a form that is not
positive. A covariance keeps its directions under the aversion to risk. For a
regression the form is the squared length of the fitted values, so the directions
in question are those that the design does not see, and a design with fewer rows
than columns always has one.
-/

namespace SparseWeights

open Matrix

variable {m n : ℕ}

/-- Fewer rows than columns leave a direction unseen. -/
theorem Mat.exists_mulVec_eq_zero (A : Mat ℝ m n) (hwide : m < n) :
    ∃ x : Fin n → ℝ, x ≠ 0 ∧ Mat.toMatrix A *ᵥ x = 0 := by
  have hkernel : (Mat.toMatrix A).mulVecLin.ker ≠ ⊥ :=
    LinearMap.ker_ne_bot_of_finrank_lt (by simpa using hwide)
  obtain ⟨x, hx, hne⟩ := Submodule.exists_mem_ne_zero_of_ne_bot hkernel
  exact ⟨x, hne, hx⟩

namespace Program

/-- What a builder answers: that there is no factor exactly if the matrix is
degenerate, and a program with that matrix otherwise. -/
structure Decides (answer : Except Error (Sized ℝ)) (name : String) (degenerate : Prop)
    (quadratic : Matrix (Fin n) (Fin n) ℝ) : Prop where
  refused : answer = .error (.singular (.quadratic name)) ↔ degenerate
  built : ¬ degenerate → ∃ p : Program ℝ n, answer = .ok ⟨n, p⟩ ∧
    Mat.toMatrix p.quadratic = quadratic

/-- A symmetric matrix is degenerate if its form is not positive in some direction. -/
theorem decides_ofObjective (objective : Objective ℝ n)
    (hsymmetric : (Mat.toMatrix objective.quadratic).IsSymm) :
    Decides (ofObjective objective) objective.name
      (∃ x : Fin n → ℝ, x ≠ 0 ∧ x ⬝ᵥ (Mat.toMatrix objective.quadratic *ᵥ x) ≤ 0)
      (Mat.toMatrix objective.quadratic) := by
  by_cases hpos : ∀ x : Fin n → ℝ, x ≠ 0 →
      0 < x ⬝ᵥ (Mat.toMatrix objective.quadratic *ᵥ x)
  · obtain ⟨p, hobjective, hp⟩ := exists_ofObjective? objective hsymmetric hpos
    have hbuilt : ofObjective objective = .ok ⟨n, p⟩ :=
      ofObjective_eq_ok_iff.mpr ⟨p, hp, rfl⟩
    constructor
    · rw [hbuilt]
      refine iff_of_false (by simp) ?_
      rintro ⟨x, hx, hform⟩
      exact hform.not_gt (hpos x hx)
    · intro _
      exact ⟨p, hbuilt, by rw [p.quadratic_eq, hobjective]⟩
  · have hdegenerate : ∃ x : Fin n → ℝ, x ≠ 0 ∧
        x ⬝ᵥ (Mat.toMatrix objective.quadratic *ᵥ x) ≤ 0 := by
      push Not at hpos
      exact hpos
    have hnone : ofObjective? objective = none := by
      rw [Option.eq_none_iff_forall_ne_some]
      rintro p hp
      obtain ⟨x, hx, hform⟩ := hdegenerate
      obtain rfl := ofObjective?_objective hp
      rw [← p.quadratic_eq] at hform hsymmetric
      exact hform.not_gt (Factor.quadratic_pos_of_symmetric p.factor_eq hsymmetric hx)
    constructor
    · refine iff_of_true ?_ hdegenerate
      rw [ofObjective, hnone]
    · intro hnot
      exact absurd hdegenerate hnot

theorem regression_ofMat (X : Mat ℝ m n) (Y : Vec ℝ m) :
    regression (.ok (Tensor.ofMat X)) (.ok (Tensor.ofVec Y)) =
      ofObjective (.leastSquares X Y) := by
  simp [regression, bind, Except.bind, liftM, monadLift, MonadLift.monadLift,
    designOf_ofMat, vectorOf_ofVec]

theorem portfolio_ofMat {covariance : Mat ℝ n n} (mean : Vec ℝ n) {phi : ℝ}
    {tolerance : Option ℝ} (hsymmetric : (Mat.toMatrix covariance).IsSymm) (hphi : 0 < phi)
    (htolerance : ∀ t, tolerance = some t → 0 ≤ t) :
    portfolio (.ok (Tensor.ofMat covariance)) (.ok (Tensor.ofVec mean)) (.ok phi)
        (.ok tolerance) = ofObjective (.meanVariance covariance mean phi) := by
  have hwithin : tolerance.any (fun t => !isSymmetricWithin t covariance) = false := by
    cases tolerance with
    | none => rfl
    | some t => simp [isSymmetricWithin_of_isSymm hsymmetric (htolerance t rfl)]
  simp [portfolio, bind, Except.bind, liftM, monadLift, MonadLift.monadLift,
    covarianceOf_ofMat, vectorOf_ofVec, hwithin, Scalar.isPositive, hphi]

/-- No problem slips through and none is refused that has a factor: a regression is
refused exactly if its design does not see some direction, so always if it has
fewer rows than columns, and a portfolio exactly if the variance is not positive
in some direction. What is not refused becomes a program with the matrix of the
problem. -/
theorem singular_iff_degenerate {k : ℕ} (X : Mat ℝ m k) (Y : Vec ℝ m) (covariance : Mat ℝ n n)
    (mean : Vec ℝ n) {phi : ℝ} {tolerance : Option ℝ}
    (hsymmetric : (Mat.toMatrix covariance).IsSymm) (hphi : 0 < phi)
    (htolerance : ∀ t, tolerance = some t → 0 ≤ t) :
    Decides (regression (.ok (Tensor.ofMat X)) (.ok (Tensor.ofVec Y))) "regression"
      (∃ w : Fin k → ℝ, w ≠ 0 ∧ Mat.toMatrix X *ᵥ w = 0)
      ((Mat.toMatrix X)ᵀ * Mat.toMatrix X) ∧
    (m < k → regression (.ok (Tensor.ofMat X)) (.ok (Tensor.ofVec Y)) =
      .error (.singular (.quadratic "regression"))) ∧
    Decides (portfolio (.ok (Tensor.ofMat covariance)) (.ok (Tensor.ofVec mean)) (.ok phi)
        (.ok tolerance)) "portfolio"
      (∃ w : Fin n → ℝ, w ≠ 0 ∧ w ⬝ᵥ (Mat.toMatrix covariance *ᵥ w) ≤ 0)
      (phi • Mat.toMatrix covariance) := by
  have hunseen (w : Fin k → ℝ) :
      w ⬝ᵥ (Mat.toMatrix (Mat.gram X) *ᵥ w) ≤ 0 ↔ Mat.toMatrix X *ᵥ w = 0 := by
    rw [Mat.form_gram, (dotProduct_self_nonneg _).ge_iff_eq', dotProduct_self_eq_zero]
  have hscaled (w : Fin n → ℝ) :
      w ⬝ᵥ (Mat.toMatrix (Mat.scale phi covariance) *ᵥ w) ≤ 0 ↔
        w ⬝ᵥ (Mat.toMatrix covariance *ᵥ w) ≤ 0 := by
    rw [Mat.toMatrix_scale, Matrix.smul_mulVec, dotProduct_smul, smul_eq_mul, ← not_lt,
      mul_pos_iff_of_pos_left hphi, not_lt]
  have hregression := decides_ofObjective (.leastSquares X Y) (Mat.gram_isSymm X)
  rw [← regression_ofMat] at hregression
  simp only [Objective.quadratic, hunseen] at hregression
  rw [Mat.toMatrix_gram] at hregression
  have hportfolio := decides_ofObjective (.meanVariance covariance mean phi)
    (Mat.isSymm_scale hsymmetric)
  rw [← portfolio_ofMat mean hsymmetric hphi htolerance] at hportfolio
  simp only [Objective.quadratic, hscaled] at hportfolio
  rw [Mat.toMatrix_scale] at hportfolio
  refine ⟨hregression, ?_, hportfolio⟩
  intro hwide
  exact hregression.refused.mpr (X.exists_mulVec_eq_zero hwide)

/-- Two equal columns are refused although there is a row for each of them; the portfolio of
two assets that do not move together is not. -/
theorem singular_iff_degenerate_pair :
    (Mat.toMatrix pairDesign).IsSymm ∧ (0 : ℝ) < 2 ∧
    regression (.ok (Tensor.ofMat #v[#v[1, 1], #v[1, 1]])) (.ok (Tensor.ofVec pairResponse)) =
      .error (.singular (.quadratic "regression")) ∧
    ∃ p : Program ℝ 2, portfolio (.ok (Tensor.ofMat pairDesign))
        (.ok (Tensor.ofVec pairResponse)) (.ok 2) (.ok (some (1 / 10 ^ 10))) = .ok ⟨2, p⟩ ∧
      Mat.toMatrix p.quadratic = (2 : ℝ) • (1 : Matrix (Fin 2) (Fin 2) ℝ) := by
  have hsymmetric : (Mat.toMatrix pairDesign).IsSymm := by
    rw [pairDesign_toMatrix]
    exact Matrix.isSymm_one
  have htolerance (t : ℝ) (ht : some (1 / 10 ^ 10) = some t) : 0 ≤ t := by
    rw [← Option.some.inj ht]
    positivity
  obtain ⟨hregression, _, hportfolio⟩ := singular_iff_degenerate
    #v[#v[1, 1], #v[1, 1]] pairResponse pairDesign pairResponse hsymmetric two_pos htolerance
  refine ⟨hsymmetric, two_pos, hregression.refused.mpr ⟨![1, -1], ?_, ?_⟩, ?_⟩
  · intro hzero
    exact one_ne_zero (congrFun hzero 0)
  · funext i
    fin_cases i <;> simp [Matrix.mulVec, dotProduct, Mat.toMatrix_apply, Vec.get_eq_getElem]
  · rw [← pairDesign_toMatrix]
    apply hportfolio.built
    rintro ⟨w, hw, hform⟩
    rw [pairDesign_toMatrix, Matrix.one_mulVec] at hform
    exact hform.not_gt (dotProduct_self_pos hw)

end Program

end SparseWeights
