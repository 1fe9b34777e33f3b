import SparseWeights.Data.Number

/-!
Texts as templates that are filled with one whole number. A percent sign starts a place: flags, a width,
a precision and a letter that says how the number is written. A star in the place of a width or a
precision takes the number itself; two percent signs are no place but write one. The number has to be
taken exactly once. Of the text that comes out only its being empty is
told, which is all that counts where a text is taken for a truth value.
-/

namespace SparseWeights.Template

structure Filling where
  taken : Bool := false
  blank : Bool := true

namespace Filling

def take (f : Filling) : Except Fault Filling :=
  if f.taken then .error .wrongType else .ok { f with taken := true }

def write (f : Filling) : Filling := { f with blank := false }

end Filling

def isFlag (c : Char) : Bool := c == '-' || c == '+' || c == ' ' || c == '#' || c == '0'

/-- The letters that may stand in front of the one that counts. -/
def isLengthMark (c : Char) : Bool := c == 'h' || c == 'l' || c == 'L'

/-- The largest width and the largest precision. -/
def maxWidth : Nat := Decimal.pow2 63 - 1

def maxPrecision : Nat := Decimal.pow2 31 - 1

def amount (most : Nat) (n : Int) (f : Filling) (cs : List Char) :
    Except Fault (Nat × Filling × List Char) :=
  match cs with
  | '*' :: rest => do
    let f ← f.take
    if (most : Int) < n then .error .tooLarge else return (n.toNat, f, rest)
  | cs =>
    let digits := (cs.takeWhile Char.isDigit).map fun c => c.toNat - '0'.toNat
    let width := Decimal.ofDigits digits
    if most < width then .error .unreadable else .ok (width, f, cs.dropWhile Char.isDigit)

def precision (n : Int) (f : Filling) (cs : List Char) :
    Except Fault (Option Nat × Filling × List Char) :=
  match cs with
  | '.' :: rest => do
    let (places, f, rest) ← amount maxPrecision n f rest
    return (some places, f, rest)
  | cs => .ok (none, f, cs)

def writeAs (letter : Char) (n : Int) (width : Nat) (places : Option Nat) (f : Filling) :
    Except Fault Filling := do
  let f ← f.take
  if letter ∈ ['s', 'r', 'a'] then return if width = 0 ∧ places = some 0 then f else f.write
  else if letter ∈ ['d', 'i', 'u', 'o', 'x', 'X'] then return f.write
  else if letter ∈ ['e', 'E', 'f', 'F', 'g', 'G'] then do
    let _ ← (Value.int n).toFloat
    return f.write
  else if letter = 'c' then if n.toNat < 0x110000 then return f.write else .error .tooLarge
  else .error .unreadable

/-- Fills the place behind a percent sign, and gives what follows it. -/
def fillPlace (n : Int) (f : Filling) (cs : List Char) : Except Fault (Filling × List Char) :=
  match cs with
  | '%' :: rest => .ok (f.write, rest)
  | '(' :: _ => .error .wrongType
  | cs => do
    let (width, f, rest) ← amount maxWidth n f (cs.dropWhile isFlag)
    let (places, f, rest) ← precision n f rest
    let rest := if rest.head?.any isLengthMark then rest.drop 1 else rest
    match rest with
    | [] => .error .unreadable
    | letter :: rest => return (← writeAs letter n width places f, rest)

/-- Fills all places; the first argument bounds their number. -/
def fillFrom (n : Int) : Nat → Filling → List Char → Except Fault Filling
  | 0, f, _ => .ok f
  | fuel + 1, f, cs =>
    match cs with
    | [] => .ok f
    | '%' :: rest => do
      let (f, rest) ← fillPlace n f rest
      fillFrom n fuel f rest
    | _ :: rest => fillFrom n fuel f.write rest

/-- Whether a template filled with a number is the empty text. -/
def isBlank (template : String) (n : Int) : Except Fault Bool := do
  let cs := template.toList
  let f ← fillFrom n (cs.length + 1) {} cs
  if f.taken then return f.blank else .error .wrongType

end SparseWeights.Template
