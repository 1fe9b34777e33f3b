import SparseWeights.Data.Tensor
import SparseWeights.Error
import SparseWeights.Linear.Cholesky

/-!
The linear system of the weight update, with the matrix `Q + rho (I + e eᵀ)`. The matrix stays the same
as long as the step size does, so its factor is kept; a system is never without a factor of its own
matrix. A step size for which there is no factor is refused, and the system stays as it was.
-/

namespace SparseWeights

variable {α : Type} [Scalar α] {n : Nat}

/-- The matrix `Q + rho (I + e eᵀ)`. -/
@[specialize] def Mat.shifted (Q : Mat α n n) (rho : α) : Mat α n n :=
  Mat.ofFn fun i j => (Q.get i).get j + rho * ((if i = j then 1 else 0) + 1)

structure WeightSystem (α : Type) [Scalar α] (n : Nat) where
  quadratic : Mat α n n
  rho : α
  factor : Factor α n
  factor_eq : Factor.ofMatrix? (Mat.shifted quadratic rho) = some factor

namespace WeightSystem

/-- The system of a matrix and a step size; `none` if there is no factor. -/
@[specialize] def ofMatrix? (quadratic : Mat α n n) (rho : α) : Option (WeightSystem α n) :=
  match h : Factor.ofMatrix? (Mat.shifted quadratic rho) with
  | some factor => some ⟨quadratic, rho, factor, h⟩
  | none => none

def build (Q : Tensor Float) (rho : Except Fault Float) :
    Except Error ((n : Nat) × WeightSystem Float n) :=
  match Q.toMat? with
  | some ⟨m, n, Q⟩ =>
    if h : m = n then do
      let rho ← rho
      match ofMatrix? (Q.cast h) rho with
      | some system => .ok ⟨n, system⟩
      | none => .error (.singular (.system rho))
    else .error (.invalid .systemNotSquare)
  | none => .error (.invalid .systemNotSquare)

inductive Change where
  | kept
  | replaced
  | refused
  deriving DecidableEq, Repr

@[specialize] def update (system : WeightSystem α n) (rho : α) : Change × WeightSystem α n :=
  if Scalar.same rho system.rho then (.kept, system)
  else
    match ofMatrix? system.quadratic rho with
    | some next => (.replaced, next)
    | none => (.refused, system)

/-- The solution for a right side; `none` if that is not finite. -/
@[specialize] def solve? (system : WeightSystem α n) (b : Vec α n) : Option (Vec α n) :=
  system.factor.solve? b

end WeightSystem

end SparseWeights
