import SparseWeights.Data.Number

/-!
JSON read into values. A number is a double exactly when it has a point or an exponent; besides the
standard, the words for NaN and the infinities are numbers. Of two fields of one name the later value
stands, in the place of the earlier. Reading is all or nothing: there is no value for a text with
anything after its value. A text is read from left to right up to its first fault: a place where it is
not JSON, a whole number of too many digits, a list or a record too deep inside others, or a string with
half of a pair of code units, which is no text of characters.
-/

namespace SparseWeights.Json

def isSpace (c : Char) : Bool := c == ' ' || c == '\t' || c == '\n' || c == '\r'

def skipSpace (cs : List Char) : List Char := cs.dropWhile isSpace

def isDigit (c : Char) : Bool := '0' ≤ c && c ≤ '9'

def digitsOf (cs : List Char) : Nat := cs.foldl (fun n c => 10 * n + (c.toNat - 48)) 0

def fraction? : List Char → Option (List Char × List Char)
  | '.' :: d :: rest =>
    if isDigit d then some (d :: rest.takeWhile isDigit, rest.dropWhile isDigit) else none
  | _ => none

/-- The exponent after an `e`, if there is an `e` with digits after it. -/
def exponent? : List Char → Option (Int × List Char)
  | e :: rest =>
    if e = 'e' ∨ e = 'E' then
      let (negative, rest) := Decimal.signOf rest
      let digits := rest.takeWhile isDigit
      if digits.isEmpty then none
      else some (Decimal.signed negative (digitsOf digits), rest.dropWhile isDigit)
    else none
  | [] => none

/-- The digits before the point: a lone zero, or digits that do not start with one. -/
def whole? : List Char → Option (List Char × List Char)
  | '0' :: rest => some (['0'], rest)
  | d :: rest =>
    if isDigit d then some (d :: rest.takeWhile isDigit, rest.dropWhile isDigit) else none
  | [] => none

/-- A value that was read, and what follows it. -/
abbrev Read := Except Fault (Value × List Char)

/-- A whole number of the given digits, if they are not too many. -/
def wholeNumber (negative : Bool) (digits : List Char) : Except Fault Value :=
  if digits.length ≤ Decimal.maxDigits then .ok (.int (Decimal.signed negative (digitsOf digits)))
  else .error .unreadable

def unsigned (negative : Bool) (cs : List Char) : Read :=
  match whole? cs with
  | none => .error .malformedJson
  | some (whole, rest) =>
    match fraction? rest, exponent? rest with
    | none, none => (wholeNumber negative whole).map (·, rest)
    | none, some (exponent, rest) =>
      .ok (.float (Decimal.Binary64.ofDecimal negative (digitsOf whole) exponent), rest)
    | some (places, rest), _ =>
      let (exponent, rest) := (exponent? rest).getD (0, rest)
      .ok (.float (Decimal.Binary64.ofDecimal negative (digitsOf (whole ++ places))
        (exponent - places.length)), rest)

def number : List Char → Read
  | '-' :: rest => unsigned true rest
  | cs => unsigned false cs

def words : List (List Char × Value) := [
  ("null".toList, .null), ("true".toList, .bool true), ("false".toList, .bool false),
  ("NaN".toList, .float (0 / 0)), ("Infinity".toList, .float (1 / 0)),
  ("-Infinity".toList, .float (-1 / 0))]

def word? (cs : List Char) : Option (Value × List Char) :=
  words.findSome? fun (word, value) => (word.isPrefixOf? cs).map (value, ·)

def hex? (cs : List Char) : Option Nat :=
  cs.foldlM (fun n c => (Text.hexDigit? c).map (16 * n + ·)) 0

def escape? : Char → Option Nat
  | '\x22' => some 0x22
  | '\\' => some 0x5c
  | '/' => some 0x2f
  | 'b' => some 0x08
  | 'f' => some 0x0c
  | 'n' => some 0x0a
  | 'r' => some 0x0d
  | 't' => some 0x09
  | _ => none

/-- The code units of a string up to its closing quote, and what follows it. -/
def units? : List Char → Option (List Nat × List Char)
  | [] => none
  | '\x22' :: rest => some ([], rest)
  | '\\' :: 'u' :: a :: b :: c :: d :: rest => do
    let unit ← hex? [a, b, c, d]
    let (more, tail) ← units? rest
    some (unit :: more, tail)
  | '\\' :: e :: rest => do
    let unit ← escape? e
    let (more, tail) ← units? rest
    some (unit :: more, tail)
  | c :: rest =>
    if c.toNat < 0x20 then none
    else do
      let (more, tail) ← units? rest
      some (c.toNat :: more, tail)

def isHigh (unit : Nat) : Bool := 0xd800 ≤ unit && unit < 0xdc00

def isLow (unit : Nat) : Bool := 0xdc00 ≤ unit && unit < 0xe000

/-- The character of a code unit; half of a pair has none. -/
def charOfUnit? (unit : Nat) : Option Char :=
  if isHigh unit || isLow unit then none else some (Char.ofNat unit)

/-- The characters of code units, two halves of a pair making one; `none` if half of one is left. -/
def joinUnits? : List Nat → Option (List Char)
  | [] => some []
  | [unit] => (charOfUnit? unit).map ([·])
  | high :: low :: rest =>
    if isHigh high && isLow low then
      (joinUnits? rest).map
        (Char.ofNat (0x10000 + (high - 0xd800) * 0x400 + (low - 0xdc00)) :: ·)
    else do
      let c ← charOfUnit? high
      let cs ← joinUnits? (low :: rest)
      some (c :: cs)

/-- The text of a string whose opening quote has been read. -/
def string (cs : List Char) : Except Fault (String × List Char) :=
  match units? cs with
  | some (units, rest) =>
    (joinUnits? units).elim (.error .halfPair) fun cs => .ok (String.ofList cs, rest)
  | none => .error .malformedJson

mutual

/-- A value at the start of a text, and what follows it. The first argument bounds the number of steps,
and the second one how deep lists and records may lie in each other. -/
def valueAt : Nat → Nat → List Char → Read
  | 0, _, _ => .error .malformedJson
  | fuel + 1, levels, cs =>
    match cs, levels with
    | '\x22' :: rest, _ => (string rest).map fun (s, tail) => (.text s, tail)
    | '[' :: _, 0 | '\x7b' :: _, 0 => .error .tooDeep
    | '[' :: rest, levels + 1 =>
      match skipSpace rest with
      | ']' :: tail => .ok (.list [], tail)
      | rest => (itemsAt fuel levels rest).map fun (items, tail) => (.list items, tail)
    | '\x7b' :: rest, levels + 1 =>
      match skipSpace rest with
      | '\x7d' :: tail => .ok (.record [], tail)
      | rest => (fieldsAt fuel levels rest).map fun (fields, tail) =>
        (.record (Fields.ofList fields), tail)
    | cs, _ => (word? cs).elim (number cs) .ok

def itemsAt : Nat → Nat → List Char → Except Fault (List Value × List Char)
  | 0, _, _ => .error .malformedJson
  | fuel + 1, levels, cs => do
    let (item, rest) ← valueAt fuel levels cs
    match skipSpace rest with
    | ']' :: tail => return ([item], tail)
    | ',' :: rest =>
      let (items, tail) ← itemsAt fuel levels (skipSpace rest)
      return (item :: items, tail)
    | _ => .error .malformedJson

def fieldsAt : Nat → Nat → List Char → Except Fault (List (String × Value) × List Char)
  | 0, _, _ => .error .malformedJson
  | fuel + 1, levels, cs =>
    match cs with
    | '\x22' :: rest => do
      let (name, rest) ← string rest
      match skipSpace rest with
      | ':' :: rest =>
        let (value, rest) ← valueAt fuel levels (skipSpace rest)
        match skipSpace rest with
        | '\x7d' :: tail => return ([(name, value)], tail)
        | ',' :: rest =>
          let (fields, tail) ← fieldsAt fuel levels (skipSpace rest)
          return ((name, value) :: fields, tail)
        | _ => .error .malformedJson
      | _ => .error .malformedJson
    | _ => .error .malformedJson

end

/-- The value that a JSON text spells, with lists and records at most so deep in each other. -/
def readWithin (levels : Nat) (s : String) : Except Fault Value := do
  let cs := skipSpace s.toList
  let (value, rest) ← valueAt (2 * cs.length + 2) levels cs
  if (skipSpace rest).isEmpty then return value else .error .malformedJson

end SparseWeights.Json
