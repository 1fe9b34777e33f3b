import SparseWeights.Proofs.Data.Tensor
import SparseWeights.Proofs.Linear.Cholesky

/-!
What the two builders let through. A builder gives a program exactly when its
arrays could be read, their sizes fit, and the quadratic part of the objective
has a factor; the program then carries the objective of those arrays. The
quadratic part of a regression is a Gram matrix and symmetric for any data; that
of a portfolio is symmetric if the covariance is. No regression on independent
columns is refused.
-/

namespace SparseWeights

open Matrix

namespace Program

section Builders

variable {α : Type} [Scalar α]

theorem ofObjective?_objective {n : Nat} {objective : Objective α n}
    {p : Program α n} (h : ofObjective? objective = some p) :
    p.objective = objective := by
  unfold ofObjective? at h
  simp only at h
  split at h
  · obtain rfl := Option.some.inj h
    rfl
  · cases h

theorem ofObjective_eq_ok_iff {n : Nat} {objective : Objective α n} {s : Sized α} :
    ofObjective objective = .ok s ↔
      ∃ p, ofObjective? objective = some p ∧ s = ⟨n, p⟩ := by
  unfold ofObjective
  cases ofObjective? objective with
  | none => simp
  | some p => simp [eq_comm]

theorem regression_eq_ok_iff {X Y : Tensor α} {s : Sized α} :
    regression (.ok X) (.ok Y) = .ok s ↔
      ∃ (m n : Nat) (design : Mat α m n) (response : Vec α m),
        designOf X = .ok ⟨m, n, design⟩ ∧
        vectorOf "Y" Y = .ok ⟨m, response⟩ ∧
        ofObjective (.leastSquares design response) = .ok s := by
  simp only [regression, bind, Except.bind, liftM, monadLift,
    MonadLift.monadLift, MonadLiftT.monadLift]
  constructor
  · intro h
    cases hdesign : designOf X with
    | error cause =>
        rw [hdesign] at h
        cases h
    | ok design =>
        cases hresponse : vectorOf "Y" Y with
        | error cause =>
            rw [hdesign, hresponse] at h
            cases h
        | ok response =>
            obtain ⟨m, n, design⟩ := design
            obtain ⟨l, response⟩ := response
            rw [hdesign, hresponse] at h
            simp only at h
            split at h
            · rename_i hl
              subst hl
              exact ⟨l, n, design, response, rfl, rfl, h⟩
            · cases h
  · rintro ⟨m, n, design, response, hdesign, hresponse, hbuilt⟩
    rw [hdesign, hresponse]
    simpa using hbuilt

theorem portfolio_eq_ok_iff {Sigma mu : Tensor α} {phi : α} {tolerance : Option α}
    {s : Sized α} :
    portfolio (.ok Sigma) (.ok mu) (.ok phi) (.ok tolerance) = .ok s ↔
      ∃ (n : Nat) (covariance : Mat α n n) (mean : Vec α n),
        covarianceOf Sigma = .ok ⟨n, covariance⟩ ∧
        (∀ t, tolerance = some t → isSymmetricWithin t covariance = true) ∧
        vectorOf "mu" mu = .ok ⟨n, mean⟩ ∧ Scalar.isPositive phi = true ∧
        ofObjective (.meanVariance covariance mean phi) = .ok s := by
  simp only [portfolio, bind, Except.bind, liftM, monadLift,
    MonadLift.monadLift, MonadLiftT.monadLift]
  have hcheck {n : Nat} (covariance : Mat α n n) :
      (Option.any (fun t => !isSymmetricWithin t covariance) tolerance = true) ↔
        ¬ ∀ t, tolerance = some t → isSymmetricWithin t covariance = true := by
    cases tolerance with
    | none => simp
    | some t => simp
  constructor
  · intro h
    cases hcovariance : covarianceOf Sigma with
    | error cause =>
        rw [hcovariance] at h
        cases h
    | ok covariance =>
        cases hmean : vectorOf "mu" mu with
        | error cause =>
            rw [hcovariance, hmean] at h
            simp only at h
            split at h
            · cases h
            · cases h
        | ok mean =>
            obtain ⟨n, covariance⟩ := covariance
            obtain ⟨l, mean⟩ := mean
            rw [hcovariance, hmean] at h
            simp only [hcheck] at h
            split_ifs at h with htolerance hl hphi
            subst hl
            exact ⟨l, covariance, mean, rfl, htolerance, rfl, hphi, h⟩
  · rintro ⟨n, covariance, mean, hcovariance, htolerance, hmean, hphi, hbuilt⟩
    rw [hcovariance, hmean]
    simp only [hcheck]
    rw [if_neg (not_not.mpr htolerance)]
    simpa [hphi] using hbuilt

end Builders

variable {n : ℕ}

/-- A program with a symmetric quadratic part. -/
def Symmetric (p : Program ℝ n) : Prop :=
  (Mat.toMatrix p.quadratic).IsSymm

/-- The programs that the two builders let through, as far as their quadratic
part is symmetric: every regression, and a portfolio whose covariance is
symmetric and not only up to the tolerance. -/
inductive Accepted (p : Program ℝ n) : Prop where
  | regression (X Y : Tensor ℝ)
      (hbuilt : Program.regression (.ok X) (.ok Y) = .ok ⟨n, p⟩)
  | portfolio (Sigma mu : Tensor ℝ) (phi : ℝ) (tolerance : Option ℝ)
      (covariance : Mat ℝ n n)
      (hread : covarianceOf Sigma = .ok ⟨n, covariance⟩)
      (hsymmetric : (Mat.toMatrix covariance).IsSymm)
      (hbuilt : Program.portfolio (.ok Sigma) (.ok mu) (.ok phi) (.ok tolerance) =
        .ok ⟨n, p⟩)

theorem Accepted.symmetric {p : Program ℝ n} (hp : p.Accepted) : p.Symmetric := by
  rw [Symmetric, p.quadratic_eq]
  cases hp with
  | regression X Y hbuilt =>
      obtain ⟨m, k, design, response, _, _, hobjective⟩ :=
        regression_eq_ok_iff.mp hbuilt
      obtain ⟨q, hq, hsized⟩ := ofObjective_eq_ok_iff.mp hobjective
      cases hsized
      rw [ofObjective?_objective hq]
      exact Mat.gram_isSymm design
  | portfolio Sigma mu phi tolerance covariance hread hsymmetric hbuilt =>
      obtain ⟨k, covariance', mean, hread', _, _, _, hobjective⟩ :=
        portfolio_eq_ok_iff.mp hbuilt
      obtain ⟨q, hq, hsized⟩ := ofObjective_eq_ok_iff.mp hobjective
      cases hsized
      obtain rfl : covariance' = covariance := by
        rw [hread] at hread'
        cases hread'
        rfl
      rw [ofObjective?_objective hq, Objective.quadratic]
      exact Mat.isSymm_scale hsymmetric

theorem exists_ofObjective? (objective : Objective ℝ n)
    (hsymmetric : (Mat.toMatrix objective.quadratic).IsSymm)
    (hpos : ∀ x : Fin n → ℝ, x ≠ 0 →
      0 < x ⬝ᵥ (Mat.toMatrix objective.quadratic *ᵥ x)) :
    ∃ p : Program ℝ n, p.objective = objective ∧ ofObjective? objective = some p := by
  obtain ⟨L, hL⟩ := Factor.exists_ofMatrix?_of_symmetric hsymmetric hpos
  have hsome : ∃ p, ofObjective? objective = some p := by
    unfold ofObjective?
    simp only
    split
    · exact ⟨_, rfl⟩
    · rename_i hnone
      rw [hL] at hnone
      cases hnone
  obtain ⟨p, hp⟩ := hsome
  exact ⟨p, ofObjective?_objective hp, hp⟩

/-- A regression on independent columns is let through. -/
theorem exists_regression {m : ℕ} (design : Mat ℝ m n) (response : Vec ℝ m)
    (hindependent : ∀ x : Fin n → ℝ, Mat.toMatrix design *ᵥ x = 0 → x = 0) :
    ∃ p : Program ℝ n, p.objective = .leastSquares design response ∧
      regression (.ok (Tensor.ofMat design)) (.ok (Tensor.ofVec response)) =
        .ok ⟨n, p⟩ := by
  have hpos : ∀ x : Fin n → ℝ, x ≠ 0 →
      0 < x ⬝ᵥ (Mat.toMatrix (Objective.leastSquares design response).quadratic *ᵥ x) := by
    intro x hx
    rw [Objective.quadratic, Mat.form_gram]
    exact dotProduct_self_pos fun h => hx (hindependent x h)
  obtain ⟨p, hobjective, hp⟩ := exists_ofObjective? (.leastSquares design response)
    (Mat.gram_isSymm design) hpos
  refine ⟨p, hobjective, regression_eq_ok_iff.mpr ?_⟩
  exact ⟨m, n, design, response, designOf_ofMat design, vectorOf_ofVec "Y" response,
    ofObjective_eq_ok_iff.mpr ⟨p, hp, rfl⟩⟩

end Program

end SparseWeights
