import SparseWeights.Data.Tensor
import SparseWeights.Penalty.Basic
import SparseWeights.Penalty.Kind

/-!
Penalties before the number of weights is known. The factors of a sorted penalty are checked when it is
made: finite, not negative and not increasing; they are never sorted here. `fit?` gives the penalty on
the number of weights of a problem, if it has as many factors.
-/

namespace SparseWeights

inductive PenaltySpec (α : Type) where
  | l1 (lam : α)
  | sortedL1 (lam : List α)

def Penalty.kind {α : Type} {n : Nat} : Penalty α n → PenaltyKind
  | l1 _ => .l1
  | sortedL1 _ => .sortedL1

namespace PenaltySpec

variable {α : Type} [Scalar α]

def kind : PenaltySpec α → PenaltyKind
  | l1 _ => .l1
  | sortedL1 _ => .sortedL1

def ofFactor (lam : List α) : Except Invalid (PenaltySpec α) :=
  match lam with
  | [x] => if Scalar.isFinite x && decide (¬ x < 0) then .ok (l1 x) else .error .weightNotPositive
  | _ => .error (.weightCount lam.length)

def ascends : List α → Bool
  | x :: y :: rest => decide (0 < y - x) || ascends (y :: rest)
  | _ => false

/-- A penalty with a factor for each place, of which there are `dimension` if that is given. -/
def ofFactors (lam : List α) (dimension : Option Int) : Except Invalid (PenaltySpec α) :=
  if dimension.any fun k : Int => k ≠ (lam.length : Int) then
    .error (.weightsLength lam.length (dimension.getD 0))
  else if lam.isEmpty then .error .weightsEmpty
  else if lam.any fun x => !Scalar.isFinite x then .error .weightsNotFinite
  else if lam.any fun x => decide (x < 0) then .error .weightsNegative
  else if ascends lam then .error .weightsAscending
  else .ok (sortedL1 lam)

def make (kind : PenaltyKind) (lam : List α) (dimension : Option Int) :
    Except Invalid (PenaltySpec α) :=
  match kind with
  | .l1 => ofFactor lam
  | .sortedL1 => ofFactors lam dimension

def fit (spec : PenaltySpec α) (n : Nat) : Except Invalid (Penalty α n) :=
  match spec with
  | l1 lam => .ok (.l1 lam)
  | sortedL1 lam =>
    if h : lam.length = n then .ok (.sortedL1 ⟨lam.toArray, by simp [h]⟩)
    else .error (.weightsLength lam.length n)

def proxThresholds (y thresholds : Tensor α) : Except Invalid (Tensor α) :=
  if h : thresholds.size = y.size then .ok (.ofVec (proxSorted y.flat (thresholds.flat.cast h)))
  else .error .thresholdsLength

/-- The proximal map at an array. A single factor keeps the shape; factors by order make it flat. -/
def proxAt (spec : PenaltySpec α) (y : Tensor α) (t : α) : Except Invalid (Tensor α) :=
  match spec with
  | l1 lam => .ok (y.map fun x => softThreshold x (t * lam))
  | sortedL1 _ =>
    match spec.fit y.size with
    | .ok p => .ok (.ofVec (p.prox y.flat t))
    | .error _ => .error .thresholdsLength

def valueAt (spec : PenaltySpec α) (w : Tensor α) : Except Fault α :=
  match spec.fit w.size with
  | .ok p => .ok (p.value w.flat)
  | .error _ => .error .shapeMismatch

/-- By how much an array lies outside the dual ball. A single factor, or a single entry, is compared with
all of the other side. -/
def dualInfeasibilityAt (spec : PenaltySpec α) (alpha : Tensor α) : Except Fault α :=
  match spec with
  | l1 lam => .ok ((Penalty.l1 lam).dualInfeasibility alpha.flat)
  | sortedL1 lam =>
    if alpha.size = 0 then .ok 0
    else do
      let excess ← Tensor.zipWith (fun a l => a - l) (.ofList (Vec.descending alpha.flat)) (.ofList lam)
      .ok ((prefixSums 0 excess.entries).foldl Scalar.maxNaN 0)

/-- The penalty of a kind with the factors and the number of weights that two values spell; null stands
for any number of weights. -/
def ofValues (kind : PenaltyKind) (lam dimension : Value) : Except Error (PenaltySpec Float) := do
  let lam ← Tensor.ofValue lam
  let dimension ← match kind, dimension with
    | .l1, _ | _, .null => pure none
    | .sortedL1, k => some <$> k.toInt
  make kind lam.entries dimension

end PenaltySpec

end SparseWeights
