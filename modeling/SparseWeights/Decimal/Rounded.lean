import SparseWeights.Decimal.Binary64

/-!
Doubles written with a given number of digits: in scientific notation, with a fixed number of places, or
in the shorter of the two. Each form is the exact value rounded once, a tie going to the even digit. NaN
and the infinities are words in every form.
-/

namespace SparseWeights.Decimal

/-- Whole numbers of more decimal digits than this are neither read from texts nor written in messages. -/
def maxDigits : Nat := 4300

def natText (n : Nat) : String := String.ofList (Nat.toDigits 10 n)

def intText (n : Int) : String := (if n < 0 then "-" else "") ++ natText n.natAbs

def zeroPadded (width n : Nat) : List Char :=
  let digits := Nat.toDigits 10 n
  List.replicate (width - digits.length) '0' ++ digits

/-- A text filled up with blanks on the left. -/
def padLeft (width : Nat) (s : String) : String :=
  String.ofList (List.replicate (width - s.length) ' ') ++ s

/-- The exponent of the leading decimal digit of a positive fraction. -/
def leadingExponent (num den : Nat) : Int :=
  let guess : Int := ((Nat.toDigits 10 num).length : Int) - (Nat.toDigits 10 den).length
  if den * pow10 guess.toNat ≤ num * pow10 (-guess).toNat then guess else guess - 1

/-- `places + 1` significant digits of a positive fraction, and the exponent of the first of them. -/
def significant (places : Nat) (num den : Nat) : Nat × Int :=
  let exponent := leadingExponent num den
  let shift := (places : Int) - exponent
  let digits := roundHalfEven (num * pow10 shift.toNat) (den * pow10 (-shift).toNat)
  if digits = pow10 (places + 1) then (pow10 places, exponent + 1) else (digits, exponent)

def exponentText (exponent : Int) : String :=
  "e" ++ (if exponent < 0 then "-" else "+") ++ String.ofList (zeroPadded 2 exponent.natAbs)

/-- A digit, a point and the digits after it. -/
def pointed : List Char → List Char
  | [] => []
  | [d] => [d]
  | d :: rest => d :: '.' :: rest

/-- The words for the values that are not finite, and the sign and the rest for the others. -/
def written (x : Float) (finite : Binary64 → String) : String :=
  if x.isNaN then "nan"
  else if x.isInf then (if x < 0 then "-inf" else "inf")
  else
    let b := Binary64.ofFloat x
    (if b.negative then "-" else "") ++ finite b

/-- The digits and the exponent of scientific notation; zero has exponent zero. -/
def Binary64.significant (places : Nat) (b : Binary64) : Nat × Int :=
  if b.mantissa = 0 then (0, 0) else Decimal.significant places b.num b.den

def scientific (places : Nat) (x : Float) : String :=
  written x fun b =>
    let (digits, exponent) := b.significant places
    String.ofList (pointed (zeroPadded (places + 1) digits)) ++ exponentText exponent

/-- A whole number of units of the last place, with the point where it belongs. -/
def placed (places units : Nat) : String :=
  let digits := zeroPadded (places + 1) units
  let whole := digits.length - places
  String.ofList (digits.take whole) ++
    if places = 0 then "" else "." ++ String.ofList (digits.drop whole)

def fixed (places : Nat) (x : Float) : String :=
  written x fun b => placed places (roundHalfEven (b.num * pow10 places) b.den)

/-- The digits without the zeros at the end, and without a point left at the end. -/
def trimZeros (cs : List Char) : List Char :=
  if cs.contains '.' then
    let rest := cs.reverse.dropWhile (· == '0')
    (if rest.head? = some '.' then rest.tail else rest).reverse
  else cs

/-- Six significant digits without zeros at the end, positional for exponents from -4 to 5. -/
def general (x : Float) : String :=
  written x fun b =>
    let (digits, exponent) := b.significant 5
    if -4 ≤ exponent ∧ exponent < 6 then
      let places := (5 - exponent).toNat
      String.ofList (trimZeros (placed places digits).toList)
    else
      String.ofList (trimZeros (pointed (zeroPadded 6 digits))) ++ exponentText exponent

end SparseWeights.Decimal
