import SparseWeights.Linear.Cholesky
import SparseWeights.Program.Objective

/-!
A program is an objective whose quadratic part has a Cholesky factor. The factor is made once, when the
program is: the dual objective needs it in every iteration, and a matrix without one is refused before
the first.
-/

namespace SparseWeights

structure Program (α : Type) [Scalar α] (n : Nat) where
  objective : Objective α n
  quadratic : Mat α n n
  linear : Vec α n
  factor : Factor α n
  quadratic_eq : quadratic = objective.quadratic
  linear_eq : linear = objective.linear
  factor_eq : Factor.ofMatrix? quadratic = some factor

namespace Program

variable {α : Type} [Scalar α] {n : Nat}

/-- The program of an objective; `none` if its quadratic part has no Cholesky factor. -/
@[specialize] def ofObjective? (objective : Objective α n) : Option (Program α n) :=
  let quadratic := objective.quadratic
  match h : Factor.ofMatrix? quadratic with
  | some factor => some ⟨objective, quadratic, objective.linear, factor, rfl, rfl, h⟩
  | none => none

/-- The point at which the dual objective is evaluated: `c - alpha - beta e`. -/
@[specialize] def dualPoint (p : Program α n) (alpha : Vec α n) (beta : α) : Vec α n :=
  (Vec.sub p.linear alpha).map fun x => x - beta

/-- The value of the dual objective from the product of the dual point with `Q⁻¹` times itself. -/
@[specialize] def dualValue (p : Program α n) (product beta : α) : α :=
  -Scalar.half * product + p.objective.offset - beta

/-- The dual objective; `none` if the dual point is not finite. -/
@[specialize] def dualObjective? (p : Program α n) (alpha : Vec α n) (beta : α) : Option α := do
  let point := p.dualPoint alpha beta
  let solution ← p.factor.solve? point
  some (p.dualValue (Vec.dot point solution) beta)

end Program

end SparseWeights
