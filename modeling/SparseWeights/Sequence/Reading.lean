import SparseWeights.Data.Tensor
import SparseWeights.Sequence.Basic
import SparseWeights.Sequence.Quantile

/-!
Sequences from values of any kind. Bounds and levels are compared as they are given, without rounding;
only then do they become doubles. A number of factors that is not whole is accepted where only the ranks
up to it are counted. The quantile function is a parameter, and that of the normal distribution is the one
that requests are answered with.
-/

namespace SparseWeights.Sequence

structure Request where
  count : Value
  kind : Value := .text "linear"
  first : Value := .float 1
  last : Value := .float 0
  level : Value := .float 0.1

def Request.hasBadBounds (r : Request) : Except Fault Bool := do
  if ← r.first.isBelow (.int 0) then return true
  else if ← r.last.isBelow (.int 0) then return true
  else r.first.isBelow r.last

def Request.hasBadLevel (r : Request) : Except Fault Bool := do
  return !((← (Value.int 0).isBelow r.level) && (← r.level.isBelow (.int 1)))

/-- A bound of even steps. A whole number has to fit the words that arrays are made of. -/
def bound (v : Value) : Except Fault Float :=
  match v with
  | .int n =>
    if -(Decimal.pow2 63 : Int) ≤ n ∧ n < (Decimal.pow2 64 : Int) then v.toFloat
    else .error .noArithmetic
  | v => v.toFloat

def evenFactors (memory : Memory) (quantile : Float → Float) (r : Request) :
    Except Error (List Float) := do
  let n ← r.count.toSize
  let first ← bound r.first
  let last ← bound r.last
  generate quantile (← memory.checkedCount n.toNat) first last .linear

/-- The whole number that is not below a double, zero for one below zero. -/
def ceiling (x : Float) : Nat :=
  let whole := (Value.wholePart x).toNat
  if Float.ofNat whole < x then whole + 1 else whole

/-- The number of ranks up to a number that is not whole. One is added and taken away, so that a number
too small to be told from zero has no ranks. -/
def rankCount (size : Float) : Except Fault Nat :=
  let ranks := size + 1 - 1
  if ranks.isFinite then .ok (ceiling ranks) else .error .unreadable

/-- The number of tests, and how many of them have a rank. -/
def tests (count : Value) : Except Fault (Float × Nat) := do
  match count with
  | .float size => return (size, ← rankCount size)
  | count =>
    let n := (← count.toSize).toNat
    return (Float.ofNat n, n)

/-- The bound that the quantiles are scaled to. It is not looked at where there is nothing to scale. -/
def scale (bound : Value) (raw : List Float) : Except Fault Float := do
  match raw with
  | [] => .error .noEntry
  | top :: _ => if 0 < top then bound.toFloat else return 0

/-- Factors by quantiles. Where there is nothing to scale all factors are zero, and then their number has
to be a whole one. -/
def quantileFactors (memory : Memory) (quantile : Float → Float) (r : Request) :
    Except Error (List Float) := do
  if ← r.hasBadLevel then .error (.rejected .sequenceLevel)
  else
    let q ← r.level.toFloat
    let (size, n) ← tests r.count
    let n ← memory.checkedCount n
    let raw := quantiles quantile q size n
    let first ← scale r.first raw
    match r.count with
    | .int _ => generate quantile n first 0 (.quantile q)
    | _ => (scaled? first raw).elim (.error (.fault .wrongType)) fun factors => .ok (runningMin factors)

/-- The sequence that a request asks for, by the given quantile function. -/
def ofRequestBy (memory : Memory) (quantile : Float → Float) (r : Request) :
    Except Error (List Float) := do
  if ← r.count.atMost (.int 0) then .error (.rejected .sequenceLength)
  else if ← r.hasBadBounds then .error (.rejected .sequenceBounds)
  else
    match r.kind.display with
    | "linear" => evenFactors memory quantile r
    | "bh" => quantileFactors memory quantile r
    | name => .error (.rejected (.sequenceKind name))

def ofRequest (memory : Memory) (r : Request) : Except Error (List Float) :=
  ofRequestBy memory Quantile.normal r

end SparseWeights.Sequence
