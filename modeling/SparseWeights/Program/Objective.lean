import SparseWeights.Linear.Spectral

/-!
The smooth parts of the problems: half the squared residual of a regression, and the risk of a portfolio
less its expected return. Each is a quadratic form `wᵀ Q w / 2 - cᵀ w + offset`, evaluated in the shape
that is natural for the problem.
-/

namespace SparseWeights

inductive Objective (α : Type) (n : Nat) where
  /-- Half the squared distance of `X w` from `Y`. -/
  | leastSquares {m : Nat} (X : Mat α m n) (Y : Vec α m)
  /-- Half the variance of `w`, weighted with the aversion to risk `phi`, less its mean. -/
  | meanVariance (Sigma : Mat α n n) (mu : Vec α n) (phi : α)

namespace Objective

variable {α : Type} [Scalar α] {n : Nat}

def name : Objective α n → String
  | leastSquares .. => "regression"
  | meanVariance .. => "portfolio"

/-- The matrix `Q`. -/
@[specialize] def quadratic : Objective α n → Mat α n n
  | leastSquares X _ => Mat.gram X
  | meanVariance Sigma _ phi => Mat.scale phi Sigma

/-- The vector `c`. -/
@[specialize] def linear : Objective α n → Vec α n
  | leastSquares X Y => Mat.mulVec (Mat.transpose X) Y
  | meanVariance _ mu _ => mu

@[specialize] def offset : Objective α n → α
  | leastSquares _ Y => Scalar.half * Vec.dot Y Y
  | meanVariance .. => 0

@[specialize] def value (o : Objective α n) (w : Vec α n) : α :=
  match o with
  | leastSquares X Y =>
    let residual := Vec.sub Y (Mat.mulVec X w)
    Scalar.half * Vec.dot residual residual
  | meanVariance Sigma mu phi =>
    Scalar.half * phi * Vec.dot w (Mat.mulVec Sigma w) - Vec.dot mu w

/-- A step size has to be positive and finite; where an estimate is not, one is taken. -/
@[specialize] def positiveOrOne (x : α) : α :=
  if Scalar.isFinite x = true ∧ ¬ x ≤ 0 then x else 1

/-- The step size that is used when none is asked for. `Spectral.norm` stands for the norm of the
matrix: its sweeps end after a fixed number of rounds, so over the reals it need not be the norm itself.
No statement about a run depends on its value, only on `positiveOrOne`, by which every step size that is
used is positive. -/
@[specialize] def defaultRho : Objective α n → α
  | leastSquares X _ => positiveOrOne (Spectral.norm X)
  | meanVariance Sigma _ phi => positiveOrOne (Scalar.sqrt phi * Spectral.norm Sigma)

end Objective

end SparseWeights
