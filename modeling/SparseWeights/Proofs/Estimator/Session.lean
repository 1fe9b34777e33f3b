import SparseWeights.Proofs.Data.Tensor
import SparseWeights.Proofs.Estimator.Turns

/-!
What an estimator can be asked. Questions are answered from the result of the
last fit that came to its end. They are refused as asked too early as long as
there was none, and never after that, whatever else may be wrong about them.
-/

namespace SparseWeights

/-- The errors of running rather than of arguments: an estimator that is asked
too early, a tracker that is missing, and values that are nested too deep. -/
def Error.isRuntime : Error → Bool
  | .notFitted _ | .trackerMissing | .fault .tooDeep => true
  | _ => false

namespace Estimator

variable {kind : EstimatorKind} {e : Estimator} {turns : List Turn}

/-- A computation that never ends in an error of running. -/
def NotRuntime {α : Type} (x : Except Error α) : Prop :=
  ∀ cause, x = .error cause → cause.isRuntime = false

section

variable {α β : Type}

theorem NotRuntime.bind {x : Except Error α} {next : α → Except Error β} (hx : NotRuntime x)
    (hnext : ∀ a, x = .ok a → NotRuntime (next a)) : NotRuntime (x >>= next) := by
  intro cause h
  obtain h | ⟨a, ha, h⟩ := bind_eq_error_iff.mp h
  · exact hx cause h
  · exact hnext a ha cause h

end

end Estimator

end SparseWeights
