import SparseWeights.Error
import SparseWeights.Scalar

/-!
Factors for the sorted penalty. A linear sequence falls in equal steps; a quantile sequence follows the
quantiles that the tests of a multiple testing procedure are compared with, scaled to a given first
factor. A running minimum at the end keeps rounding from breaking the order.
-/

namespace SparseWeights.Sequence

variable {α : Type} [Scalar α]

/-- The smallest entry so far, for each entry, starting with `least`. -/
def runningMinFrom (least : α) : List α → List α
  | [] => [least]
  | x :: rest => least :: runningMinFrom (Scalar.minNaN least x) rest

def runningMin : List α → List α
  | [] => []
  | x :: rest => runningMinFrom x rest

/-- The entry at place `i` of `n` entries in equal steps from `first` to `last`; the last one is exact. -/
def evenStep (first last : α) (n i : Nat) : α :=
  let width := last - first
  let step := width / Scalar.ofNat (n - 1)
  if n = 1 then 0 * width + first
  else if i + 1 = n then last
  else if Scalar.same step 0 then Scalar.ofNat i / Scalar.ofNat (n - 1) * width + first
  else Scalar.ofNat i * step + first

def linear (first last : α) (n : Nat) : List α := (List.range n).map (evenStep first last n)

/-- The probability that the quantile of the given rank is taken at. -/
def level (q size : α) (rank : Nat) : α :=
  1 - Scalar.ofNat rank * q / ((1 + 1) * size)

/-- The quantiles of ranks one to `count` for `size` tests, none below zero. -/
def quantiles (quantile : α → α) (q size : α) (count : Nat) : List α :=
  (List.range count).map fun i => Scalar.maxNaN (quantile (level q size (i + 1))) 0

/-- Entries scaled so that the first one is `first`; `none` if the first one is not positive. -/
def scaled? (first : α) : List α → Option (List α)
  | [] => none
  | top :: rest => if 0 < top then some ((top :: rest).map fun x => first * x / top) else none

/-- How a sequence falls. -/
inductive Shape (α : Type) where
  | linear
  | quantile (q : α)

def badBounds (first last : α) : Bool :=
  decide (first < 0) || decide (last < 0) || decide (first < last)

def badLevel (q : α) : Bool := !(decide (0 < q) && decide (q < 1))

def rejection? (first last : α) : Shape α → Option Rejection
  | .linear => if badBounds first last then some .sequenceBounds else none
  | .quantile q =>
    if badBounds first last then some .sequenceBounds
    else if badLevel q then some .sequenceLevel
    else none

def factors (quantile : α → α) (n : Nat) (first last : α) : Shape α → List α
  | .linear => runningMin (linear first last n)
  | .quantile q => runningMin
    ((scaled? first (quantiles quantile q (Scalar.ofNat n) n)).getD (List.replicate n 0))

def generate (quantile : α → α) (n : Nat) (first last : α) (shape : Shape α) :
    Except Error (List α) :=
  if n = 0 then .error (.rejected .sequenceLength)
  else
    match rejection? first last shape with
    | some cause => .error (.rejected cause)
    | none => .ok (factors quantile n first last shape)

end SparseWeights.Sequence
