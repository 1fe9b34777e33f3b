/-!
Doubles as exact fractions. A finite double is a whole number times a power of two; `ofRatio` goes the
other way and gives the double nearest to a fraction, a tie going to the even neighbour.
-/

namespace SparseWeights.Decimal

def pow2 (n : Nat) : Nat := Nat.pow 2 n

def pow10 (n : Nat) : Nat := Nat.pow 10 n

/-- The whole number nearest to `num / den`; a tie goes to the even one. -/
def roundHalfEven (num den : Nat) : Nat :=
  let quotient := num / den
  let twice := 2 * (num % den)
  if den < twice ∨ (twice = den ∧ quotient % 2 = 1) then quotient + 1 else quotient

/-- A finite double: the sign, and the magnitude `mantissa * 2 ^ exponent`. -/
structure Binary64 where
  negative : Bool
  mantissa : Nat
  exponent : Int
  deriving DecidableEq, Repr

namespace Binary64

def ofFloat (x : Float) : Binary64 :=
  let bits := x.toBits.toNat
  let biased : Nat := bits / pow2 52 % pow2 11
  let fraction := bits % pow2 52
  let negative := bits / pow2 63 == 1
  if biased = 0 then ⟨negative, fraction, -1074⟩
  else ⟨negative, fraction + pow2 52, (biased : Int) - 1075⟩

def num (x : Binary64) : Nat := x.mantissa * pow2 x.exponent.toNat

def den (x : Binary64) : Nat := pow2 (-x.exponent).toNat

/-- The double with the given sign and the magnitude `mantissa * 2 ^ exponent`, where the mantissa has at
most 53 bits, or is `2 ^ 53`, and the exponent is at least -1074; infinite beyond the largest double. -/
def pack (negative : Bool) (mantissa : Nat) (exponent : Int) : Float :=
  let (mantissa, exponent) :=
    if mantissa = pow2 53 then (pow2 52, exponent + 1) else (mantissa, exponent)
  let magnitude :=
    if mantissa < pow2 52 then mantissa
    else
      let biased := (exponent + 1075).toNat
      if 2047 ≤ biased then 2047 * pow2 52 else biased * pow2 52 + (mantissa - pow2 52)
  Float.ofBits (UInt64.ofNat (magnitude + if negative then pow2 63 else 0))

def ofRatio (negative : Bool) (num den : Nat) : Float :=
  if num = 0 then pack negative 0 (-1074)
  else
    let guess : Int := (num.log2 : Int) - den.log2
    let reached := den * pow2 guess.toNat ≤ num * pow2 (-guess).toNat
    let top := if reached then guess else guess - 1
    let exponent := max (top - 52) (-1074)
    pack negative (roundHalfEven (num * pow2 (-exponent).toNat) (den * pow2 exponent.toNat)) exponent

/-- The double nearest to `digits * 10 ^ exponent`. Exponents far outside the range of doubles are cut
off before any power is taken. -/
def ofDecimal (negative : Bool) (digits : Nat) (exponent : Int) : Float :=
  let size : Int := (digits.log2 : Int) * 3 / 10 + exponent
  if digits = 0 ∨ size < -400 then pack negative 0 (-1074)
  else if 400 < size then pack negative (pow2 52) 2000
  else ofRatio negative (digits * pow10 exponent.toNat) (pow10 (-exponent).toNat)

/-- The double nearest to a whole number; `none` beyond the range of finite doubles. -/
def ofInt? (n : Int) : Option Float :=
  let x := ofRatio (n < 0) n.natAbs 1
  if x.isFinite then some x else none

end Binary64

end SparseWeights.Decimal
