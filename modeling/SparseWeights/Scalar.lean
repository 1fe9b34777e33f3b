/-!
The numbers the solver computes with. Every algorithm of this library is written once over `Scalar` and
read twice: in double precision, where it runs, and in the real numbers, where it is reasoned about.
The class holds operations only. Laws are not part of it, because doubles satisfy few of them: NaN, the
result of an undefined operation, is not even at most itself.
-/

namespace SparseWeights

/-- Numbers with the field operations, an order test, a square root and a test for finite values. -/
class Scalar (α : Type) extends Zero α, One α, Add α, Sub α, Mul α, Div α, Neg α, LT α, LE α where
  ofNat : Nat → α
  abs : α → α
  sqrt : α → α
  isFinite : α → Bool
  decidableLT : DecidableLT α
  decidableLE : DecidableLE α

attribute [reducible, instance] Scalar.decidableLT Scalar.decidableLE

instance : Scalar Float where
  ofNat := Float.ofNat
  abs := Float.abs
  sqrt := Float.sqrt
  isFinite := Float.isFinite
  decidableLT := inferInstance
  decidableLE := inferInstance

namespace Scalar

variable {α : Type} [Scalar α]

/-- NaN is the only number that is not at most itself. -/
@[specialize] def isNaN (x : α) : Bool := !decide (x ≤ x)

/-- Equality of values: for doubles the two zeros are equal and NaN equals nothing. -/
@[specialize] def same (a b : α) : Bool := decide (a ≤ b) && decide (b ≤ a)

/-- The larger of two numbers; NaN if either is NaN. -/
@[specialize] def maxNaN (a b : α) : α := if b ≤ a ∨ isNaN a = true then a else b

/-- The smaller of two numbers; NaN if either is NaN. -/
@[specialize] def minNaN (a b : α) : α := if a ≤ b ∨ isNaN a = true then a else b

/-- The second number if it is strictly larger, else the first, whatever that is. -/
@[specialize] def larger (a b : α) : α := if a < b then b else a

/-- One of `1`, `-1` and `0` by the side of zero that `x` is on, and NaN for NaN. -/
@[specialize] def sign (x : α) : α :=
  if 0 < x then 1 else if x < 0 then -1 else if x ≤ 0 then 0 else x

@[specialize] def half : α := 1 / (1 + 1)

/-- The two conditions that a positive parameter has to meet. -/
@[specialize] def isPositive (x : α) : Bool := isFinite x && decide (0 < x)

end Scalar

end SparseWeights
