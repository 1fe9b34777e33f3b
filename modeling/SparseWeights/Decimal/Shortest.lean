import SparseWeights.Decimal.Rounded

/-!
The shortest decimal that reads back as a given double. Around every double lies the interval of the
numbers that round to it. For one digit, two digits and so on the two neighbours of the double on that
decimal grid are tried: the first grid with a neighbour inside the interval gives the digits, and of two
such neighbours the nearer one is taken.
-/

namespace SparseWeights.Decimal

/-- The numbers that round to a double, as fractions over one denominator; the ends belong to it when the
mantissa is even. -/
structure Interval where
  low : Nat
  value : Nat
  high : Nat
  den : Nat
  closed : Bool

/-- The interval of a positive double. Below a power of two the gap to the next double is half as wide. -/
def Binary64.interval (b : Binary64) : Interval :=
  let unit := pow2 b.exponent.toNat
  let below := if b.mantissa = pow2 52 ∧ -1074 < b.exponent then 1 else 2
  { low := (4 * b.mantissa - below) * unit
    value := 4 * b.mantissa * unit
    high := (4 * b.mantissa + 2) * unit
    den := 4 * b.den
    closed := b.mantissa % 2 == 0 }

def Interval.holds (r : Interval) (digits : Nat) (exponent : Int) : Bool :=
  let x := digits * pow10 exponent.toNat * r.den
  let scale := pow10 (-exponent).toNat
  if r.closed then decide (r.low * scale ≤ x) && decide (x ≤ r.high * scale)
  else decide (r.low * scale < x) && decide (x < r.high * scale)

/-- The neighbour of the value on the grid of the given exponent that lies in the interval. -/
def Interval.neighbour? (r : Interval) (exponent : Int) : Option Nat :=
  let num := r.value * pow10 (-exponent).toNat
  let den := r.den * pow10 exponent.toNat
  let below := num / den
  let nearest := roundHalfEven num den
  if r.holds nearest exponent then some nearest
  else if r.holds below exponent then some below
  else if r.holds (below + 1) exponent then some (below + 1)
  else none

/-- The first count of digits, from `count` on, that gives a decimal in the interval. -/
def Interval.shortestFrom (r : Interval) (leading : Int) : Nat → Nat → Nat × Int
  | 0, count => (roundHalfEven (r.value * pow10 (count - leading).toNat)
      (r.den * pow10 (leading - count).toNat), leading - count)
  | left + 1, count =>
    match r.neighbour? (leading - count) with
    | some digits => (digits, leading - count)
    | none => r.shortestFrom leading left (count + 1)

def dropZeros : Nat → Nat → Int → Nat × Int
  | 0, digits, exponent => (digits, exponent)
  | fuel + 1, digits, exponent =>
    if digits ≠ 0 ∧ digits % 10 = 0 then dropZeros fuel (digits / 10) (exponent + 1)
    else (digits, exponent)

/-- The fewest digits that read back as a positive double, and the exponent of the last of them. -/
def Binary64.shortest (b : Binary64) : Nat × Int :=
  let (digits, exponent) := b.interval.shortestFrom (leadingExponent b.num b.den) 17 0
  dropZeros 20 digits exponent

/-- Digits and the exponent of the last of them, written out: positional from `1e-4` to below `1e16`, always
with a point, and in scientific notation outside. -/
def layout (digits : Nat) (exponent : Int) : String :=
  let text := Nat.toDigits 10 digits
  let leading := exponent + text.length - 1
  if -4 ≤ leading ∧ leading < 16 then
    if 0 ≤ exponent then natText (digits * pow10 exponent.toNat) ++ ".0"
    else placed (-exponent).toNat digits
  else String.ofList (pointed text) ++ exponentText leading

def shortest (x : Float) : String :=
  written x fun b =>
    if b.mantissa = 0 then "0.0" else layout b.shortest.1 b.shortest.2

end SparseWeights.Decimal
