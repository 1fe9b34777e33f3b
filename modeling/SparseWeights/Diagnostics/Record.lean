import SparseWeights.Data.Number

/-!
The record of one iteration, and the history that records make up. The solver numbers its iterations;
records from outside may carry any value in the place of the number.
-/

namespace SparseWeights

structure Record (ι α : Type) where
  iteration : ι
  primal : α
  dual : α
  /-- The relative gap between the two. -/
  gap : α
  /-- By how much the constraints are violated. -/
  primalResidual : α
  /-- By how much the multipliers lie outside the dual ball. -/
  dualResidual : α
  rho : α

namespace Record

variable {ι κ α β : Type}

def measurements (r : Record ι α) : List α :=
  [r.primal, r.dual, r.gap, r.primalResidual, r.dualResidual, r.rho]

def map (f : ι → κ) (g : α → β) (r : Record ι α) : Record κ β :=
  ⟨f r.iteration, g r.primal, g r.dual, g r.gap, g r.primalResidual, g r.dualResidual, g r.rho⟩

/-- A record of a run among records that may carry any number. -/
def generic (r : Record Nat Float) : Record Value Float := r.map (fun i => .int (Int.ofNat i)) id

def measurementNames : List String := ["obj_p", "obj_d", "pdgap", "infeas_p", "infeas_d", "rho"]

def names : List String := "iteration" :: measurementNames

def toFields (r : Record Value Float) : Fields :=
  ("iteration", r.iteration) :: measurementNames.zip (r.measurements.map .float)

def numberAt (fields : Fields) (name : String) : Except Fault Float :=
  match fields.get? name with
  | some value => value.toFloat
  | none => .error .wrongType

/-- The record that fields make up: the number of the iteration as it is, and the measurements. A field
too many or too few is not accepted. -/
def ofFields (fields : Fields) : Except Fault (Record Value Float) := do
  let numbers ← (fields.filter fun field => field.1 != "iteration").mapM fun field =>
    (fun x => (field.1, Value.float x)) <$> field.2.toFloat
  if numbers.any fun field => !measurementNames.contains field.1 then .error .wrongType
  else
    match fields.get? "iteration" with
    | none => .error .wrongType
    | some iteration =>
      let at? (name : String) : Except Fault Float := numberAt numbers name
      return ⟨iteration, ← at? "obj_p", ← at? "obj_d", ← at? "pdgap", ← at? "infeas_p",
        ← at? "infeas_d", ← at? "rho"⟩

end Record

/-- All records so far, from the first to the last. -/
abbrev History (ι α : Type) := List (Record ι α)

namespace History

def columns (h : History Value Float) : Fields :=
  Record.names.map fun name => (name, .list (h.map fun r => (r.toFields.get? name).getD .null))

end History

end SparseWeights
