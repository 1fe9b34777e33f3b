import SparseWeights.Decimal.Reading

/-!
Numbers of which only the first digits are read, zeros in front among them; the digits behind them count
as zeros. The digits make up a double step by step, which is then scaled by a power of ten. Only the
characters of ASCII are digits and blanks here.
-/

namespace SparseWeights.Decimal

def clippedDigits : Nat := 17

def isAsciiSpace (c : Char) : Bool := c == ' ' || (0x09 ≤ c.toNat && c.toNat ≤ 0x0d)

def asciiDigits (cs : List Char) : List Nat × List Char :=
  ((cs.takeWhile Char.isDigit).map fun c => c.toNat - '0'.toNat, cs.dropWhile Char.isDigit)

/-- The exponent that ends a number, if there is one. -/
def asciiExponent? : List Char → Option Int
  | [] => some 0
  | e :: rest =>
    let (negative, rest) := signOf rest
    match asciiDigits rest with
    | (d :: ds, []) =>
      if e = 'e' ∨ e = 'E' then some (signed negative (ofDigits (d :: ds))) else none
    | _ => none

def powerOfTen (n : Nat) : Float := Binary64.ofDecimal false 1 n

/-- A double times a power of ten, if that is finite. -/
def scaledBy? (x : Float) (exponent : Int) : Option Float :=
  if 308 < exponent then none
  else
    let y :=
      if 0 < exponent then x * powerOfTen exponent.toNat
      else if exponent < -616 then 0
      else if exponent < -308 then x / powerOfTen (-308 - exponent).toNat / powerOfTen 308
      else x / powerOfTen (-exponent).toNat
    if y.isInf then none else some y

/-- The double that the first digits of a number spell. -/
def readClipped? (s : String) : Option Float := do
  let (negative, rest) := signOf (Text.trim isAsciiSpace s.toList)
  let (whole, rest) := asciiDigits rest
  let (fraction, rest) :=
    match rest with
    | '.' :: rest => asciiDigits rest
    | rest => ([], rest)
  let exponent ← asciiExponent? rest
  if whole.isEmpty && fraction.isEmpty then none
  else
    let kept := (whole ++ fraction).take clippedDigits
    let beyond : Int := (whole.length - clippedDigits : Nat)
    let places : Int := (kept.length - whole.length : Nat)
    let x := kept.foldl (fun x d => x * 10 + Float.ofNat d) 0
    scaledBy? (if negative then -x else x) (exponent + beyond - places)

end SparseWeights.Decimal
