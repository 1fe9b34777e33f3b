import SparseWeights.Data.Value
import SparseWeights.Decimal.Reading
import SparseWeights.Fault

/-!
Values as numbers. Truth values count as one and zero, and texts are read. A whole number has to fit the
range of doubles to become one, and a double has to be finite to become a whole number.
-/

namespace SparseWeights.Value

open Decimal (Binary64)

def toFloat : Value → Except Fault Float
  | .bool b => .ok (if b then 1 else 0)
  | .int n => (Binary64.ofInt? n).elim (.error .tooLarge) .ok
  | .float x => .ok x
  | .text s => (Decimal.readFloat? s).elim (.error .unreadable) .ok
  | .null | .list _ | .record _ | .moment .. => .error .wrongType

/-- The whole part of a finite double. -/
def wholePart (x : Float) : Int :=
  let b := Binary64.ofFloat x
  Decimal.signed b.negative (b.num / b.den)

/-- The value as a whole number; of a double the fraction is cut off. -/
def toInt : Value → Except Fault Int
  | .bool b => .ok (if b then 1 else 0)
  | .int n => .ok n
  | .float x =>
    if x.isNaN then .error .unreadable
    else if x.isInf then .error .tooLarge
    else .ok (wholePart x)
  | .text s => (Decimal.readInt? s).elim (.error .unreadable) .ok
  | .null | .list _ | .record _ | .moment .. => .error .wrongType

/-- The value where only a whole number will do, as for a size. -/
def toSize : Value → Except Fault Int
  | .bool b => .ok (if b then 1 else 0)
  | .int n => .ok n
  | _ => .error .wrongType

/-- The value as a term of a sum with an array, where texts are not read. -/
def toTerm : Value → Except Fault Float
  | .text _ => .error .noArithmetic
  | value => value.toFloat

def isNumber : Value → Bool
  | .bool _ | .int _ | .float _ => true
  | _ => false

/-- A number in full: a fraction, an infinity, or NaN. -/
inductive Exact where
  | fraction (num : Int) (den : Nat)
  | infinite (negative : Bool)
  | nan

/-- How two numbers compare; NaN compares with nothing. -/
def Exact.compare? : Exact → Exact → Option Ordering
  | .nan, _ | _, .nan => none
  | .fraction a b, .fraction c d => some (compare (a * d) (c * b))
  | .infinite s, .infinite t => some (compare t.toNat s.toNat)
  | .infinite negative, .fraction .. => some (if negative then .lt else .gt)
  | .fraction .., .infinite negative => some (if negative then .gt else .lt)

def Exact.ofFloat (x : Float) : Exact :=
  if x.isNaN then .nan
  else if x.isInf then .infinite (x < 0)
  else
    let b := Binary64.ofFloat x
    .fraction (Decimal.signed b.negative b.num) b.den

def exact : Value → Except Fault Exact
  | .float x => .ok (.ofFloat x)
  | value => (.fraction · 1) <$> value.toSize

/-- How a number compares with another, without rounding; only numbers are compared. -/
def compare? (a b : Value) : Except Fault (Option Ordering) := do
  return (← a.exact).compare? (← b.exact)

def isBelow (a b : Value) : Except Fault Bool := do return (← a.compare? b) == some .lt

def atMost (a b : Value) : Except Fault Bool := do return (← a.compare? b).any Ordering.isLE

/-- Whether two values are the same number; values of which one is no number are not. -/
def sameNumber (a b : Value) : Bool :=
  match a.compare? b with
  | .ok order => order == some .eq
  | .error _ => false

end SparseWeights.Value
