import SparseWeights.Admm.WeightSystem
import SparseWeights.Program.Build

/-!
A linear system in use: requests for another step size and for solutions, one after the other. A request
is served by the system that the requests before it left, and only a new step size leaves another one.
An argument that could not be read is refused when its turn comes.
-/

namespace SparseWeights.WeightSystem

variable {α : Type} [Scalar α] {n : Nat}

inductive Request (α : Type) where
  | update (rho : Except Fault α)
  | solve (rhs : Except Fault (Tensor α))

inductive Answer (α : Type) where
  /-- Whether there is another step size now. -/
  | changed (answer : Bool)
  | solution (x : Tensor α)

inductive Refusal (α : Type) where
  | noFactor (rho : α)
  | fault (cause : Fault)

def Refusal.error : Refusal Float → Error
  | noFactor rho => .singular (.system rho)
  | fault cause => .fault cause

/-- What a request is answered, or refused with, and the system that it leaves. -/
def serve (system : WeightSystem α n) :
    Request α → Except (Refusal α) (Answer α) × WeightSystem α n
  | .update (.error cause) => (.error (.fault cause), system)
  | .update (.ok rho) =>
    match system.update rho with
    | (.kept, next) => (.ok (.changed false), next)
    | (.replaced, next) => (.ok (.changed true), next)
    | (.refused, next) => (.error (.noFactor rho), next)
  | .solve rhs =>
    match rhs.bind system.factor.solveAt with
    | .ok x => (.ok (.solution x), system)
    | .error cause => (.error (.fault cause), system)

/-- The system that a sequence of requests leaves. -/
def after (system : WeightSystem α n) (requests : List (Request α)) : WeightSystem α n :=
  requests.foldl (fun system request => (system.serve request).2) system

/-- What every request of a sequence is answered, with the step size that it leaves. -/
def serveAll (system : WeightSystem α n) :
    List (Request α) → List (Except (Refusal α) (Answer α) × α)
  | [] => []
  | request :: rest =>
    let (answer, next) := system.serve request
    (answer, next.rho) :: next.serveAll rest

end SparseWeights.WeightSystem
