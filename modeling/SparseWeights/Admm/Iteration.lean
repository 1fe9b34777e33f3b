import SparseWeights.Admm.WeightSystem
import SparseWeights.Diagnostics.Record
import SparseWeights.Penalty.Basic
import SparseWeights.Program.Basic

/-!
One iteration of the alternating direction method of multipliers for the smallest objective plus penalty
among the weights that sum to one. The weights are split in two: `w` carries the objective and `v` the
penalty. `alpha` is the multiplier of `w = v`, and `beta` that of `sum w = 1`.
-/

namespace SparseWeights

variable {α : Type} [Scalar α] {n : Nat}

/-- What one iteration hands on to the next. -/
structure State (α : Type) (n : Nat) where
  v : Vec α n
  alpha : Vec α n
  beta : α

structure Step (α : Type) (n : Nat) where
  w : Vec α n
  next : State α n
  record : Record Nat α

namespace State

def start (w : Vec α n) : State α n := ⟨w, Vector.replicate n 0, 0⟩

/-- The right side of the weight update: `c - alpha - beta e + rho (v + e)`. -/
@[specialize] def rightSide (linear : Vec α n) (rho : α) (s : State α n) : Vec α n :=
  Vec.add ((Vec.sub linear s.alpha).map fun x => x - s.beta) (s.v.map fun x => rho * (x + 1))

/-- The updates of `v`, `alpha` and `beta` once `w` is known. -/
@[specialize] def updated (penalty : Penalty α n) (rho : α) (s : State α n) (w : Vec α n) :
    State α n :=
  let v := penalty.prox (Vec.add w (s.alpha.map fun x => x / rho)) (1 / rho)
  { v
    alpha := Vec.add s.alpha (Vec.scale rho (Vec.sub w v))
    beta := s.beta + rho * (Vec.total w - 1) }

end State

@[specialize] def measure (program : Program α n) (penalty : Penalty α n) (rho : α) (i : Nat)
    (w : Vec α n) (next : State α n) (dual : α) : Record Nat α :=
  let primal := program.objective.value w + penalty.value w
  { iteration := i
    primal
    dual
    gap := Scalar.abs (primal - dual) / Scalar.larger 1 primal
    primalResidual :=
      Scalar.larger (Vec.maxAbs (Vec.sub w next.v)) (Scalar.abs (Vec.total w - 1))
    dualResidual := penalty.dualInfeasibility next.alpha
    rho }

/-- The iteration of the given number. It fails if a number that is not finite reaches a linear system,
and if there are no weights at all. -/
@[specialize] def State.advance (program : Program α n) (penalty : Penalty α n)
    (system : WeightSystem α n) (i : Nat) (s : State α n) : Except Fault (Step α n) :=
  match system.solve? (s.rightSide program.linear system.rho) with
  | none => .error .notFinite
  | some w =>
    let next := s.updated penalty system.rho w
    match program.dualObjective? next.alpha next.beta with
    | none => .error .notFinite
    | some dual =>
      if n = 0 then .error .emptyMaximum
      else .ok ⟨w, next, measure program penalty system.rho i w next dual⟩

end SparseWeights
