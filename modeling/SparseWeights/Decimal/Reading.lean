import SparseWeights.Decimal.Rounded
import SparseWeights.Text.Blank
import SparseWeights.Text.Digit
import SparseWeights.Text.Lower

/-!
Numbers read from text. Blank characters around a number are skipped, the separators of records and files
not being among them; digits of every script count, and single underscores may stand between digits. A
whole number is a sign and digits; a double may have a point and an exponent, or be one of the words for
infinity and NaN.
-/

namespace SparseWeights.Decimal

def isPadding (c : Char) : Bool := Text.isBlank c && !(0x1c ≤ c.toNat && c.toNat ≤ 0x1f)

def bare (s : String) : List Char := Text.trim isPadding s.toList

/-- The digits after the first one of a run, with single underscores between them, and what follows. -/
def moreDigits : List Char → List Nat × List Char
  | [] => ([], [])
  | '_' :: c :: rest =>
    match Text.digit? c with
    | some d => let (ds, tail) := moreDigits rest; (d :: ds, tail)
    | none => ([], '_' :: c :: rest)
  | c :: rest =>
    match Text.digit? c with
    | some d => let (ds, tail) := moreDigits rest; (d :: ds, tail)
    | none => ([], c :: rest)

/-- A run of digits, which may be empty, and what follows it. -/
def digitRun : List Char → List Nat × List Char
  | [] => ([], [])
  | c :: rest =>
    match Text.digit? c with
    | some d => let (ds, tail) := moreDigits rest; (d :: ds, tail)
    | none => ([], c :: rest)

def ofDigits (ds : List Nat) : Nat := ds.foldl (fun n d => 10 * n + d) 0

def signOf : List Char → Bool × List Char
  | '-' :: rest => (true, rest)
  | '+' :: rest => (false, rest)
  | rest => (false, rest)

def signed (negative : Bool) (n : Nat) : Int := if negative then -(n : Int) else n

def readInt? (s : String) : Option Int :=
  let (negative, rest) := signOf (bare s)
  match digitRun rest with
  | ([], _) => none
  | (ds, []) => if ds.length ≤ maxDigits then some (signed negative (ofDigits ds)) else none
  | _ => none

/-- Digits in base sixteen, with at most one underscore in front of each. -/
def hexDigits? : List Char → Option (List Nat)
  | [] => some []
  | '_' :: c :: rest => do return (← Text.hexDigit? (Text.asciiDigit c)) :: (← hexDigits? rest)
  | c :: rest => do return (← Text.hexDigit? (Text.asciiDigit c)) :: (← hexDigits? rest)

/-- The number that a text spells in base sixteen, behind `0x`. -/
def readHex? (s : String) : Option Nat :=
  match s.toList with
  | '0' :: 'x' :: rest =>
    ((hexDigits? (rest.reverse.dropWhile isPadding).reverse).filter (!·.isEmpty)).map fun ds =>
      ds.foldl (fun n d => 16 * n + d) 0
  | _ => none

def fractionRun : List Char → List Nat × List Char
  | '.' :: rest => digitRun rest
  | rest => ([], rest)

/-- The part of a number after the `e`, which ends the number; zero if there is none. -/
def exponentOf? : List Char → Option Int
  | [] => some 0
  | e :: rest =>
    if e = 'e' ∨ e = 'E' then
      let (negative, rest) := signOf rest
      match digitRun rest with
      | (d :: ds, []) => some (signed negative (ofDigits (d :: ds)))
      | _ => none
    else none

def readMagnitude? (negative : Bool) (cs : List Char) : Option Float := do
  let (whole, rest) := digitRun cs
  let (fraction, rest) := fractionRun rest
  let exponent ← exponentOf? rest
  if whole.isEmpty && fraction.isEmpty then none
  else some (Binary64.ofDecimal negative (ofDigits (whole ++ fraction)) (exponent - fraction.length))

def readFloat? (s : String) : Option Float :=
  let (negative, rest) := signOf (bare s)
  let word := Text.lower (String.ofList rest)
  if word = "inf" ∨ word = "infinity" then
    some (Binary64.pack negative (pow2 52) 2000)
  else if word = "nan" then some (0 / 0)
  else readMagnitude? negative rest

end SparseWeights.Decimal
