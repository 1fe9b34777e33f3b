import SparseWeights.Data.Json.Reader

/-!
The lexemes of TOML: strings of the four kinds, numbers, and moments of time. Each reader takes the
characters from its start on and gives what it read together with the characters that follow.
-/

namespace SparseWeights.Toml

def isSpace (c : Char) : Bool := c == ' ' || c == '\t'

def isSpaceOrNewline (c : Char) : Bool := isSpace c || c == '\n'

def skipSpace (cs : List Char) : List Char := cs.dropWhile isSpace

/-- Control characters; of them only the tab may stand in a line. -/
def isControl (c : Char) : Bool := c.toNat < 0x20 || c.toNat == 0x7f

def illegalInLine (c : Char) : Bool := isControl c && c != '\t'

def illegalInLines (c : Char) : Bool := illegalInLine c && c != '\n'

/-- What follows a comment, or the same characters if there is none; `none` if the comment holds a
control character. -/
def skipComment? : List Char → Option (List Char)
  | '#' :: rest =>
    let comment := rest.takeWhile (· != '\n')
    if comment.any illegalInLine then none else some (rest.dropWhile (· != '\n'))
  | cs => some cs

def codePoint? (width : Nat) (cs : List Char) : Option (Char × List Char) := do
  let digits := cs.take width
  if digits.length = width then
    let n ← Json.hex? digits
    if n.isValidChar then some (Char.ofNat n, cs.drop width) else none
  else none

/-- The character that an escape stands for, read from behind the backslash. -/
def escape? : List Char → Option (Char × List Char)
  | 'u' :: rest => codePoint? 4 rest
  | 'U' :: rest => codePoint? 8 rest
  | 'b' :: rest => some ('\x08', rest)
  | 't' :: rest => some ('\t', rest)
  | 'n' :: rest => some ('\n', rest)
  | 'f' :: rest => some ('\x0c', rest)
  | 'r' :: rest => some ('\r', rest)
  | '\x22' :: rest => some ('\x22', rest)
  | '\\' :: rest => some ('\\', rest)
  | _ => none

/-- What follows a backslash at the end of a line: the text goes on at the next character that is
neither blank nor a new line. -/
def continuation? (cs : List Char) : Option (List Char) :=
  match skipSpace cs with
  | [] => some []
  | '\n' :: rest => some (rest.dropWhile isSpaceOrNewline)
  | _ => none

/-- The text of a basic string up to its end: one quote, or three if it may span lines. -/
def basicText? (lines : Bool) : Nat → List Char → Option (List Char × List Char)
  | 0, _ => none
  | fuel + 1, cs =>
    match cs with
    | [] => none
    | '\x22' :: rest =>
      if lines then
        match rest with
        | '\x22' :: '\x22' :: tail => some ([], tail)
        | rest => (basicText? lines fuel rest).map fun (text, tail) => ('\x22' :: text, tail)
      else some ([], rest)
    | '\\' :: rest =>
      if lines && (rest.head?.any isSpaceOrNewline) then
        (continuation? rest).bind (basicText? lines fuel)
      else do
        let (c, rest) ← escape? rest
        let (text, tail) ← basicText? lines fuel rest
        some (c :: text, tail)
    | c :: rest =>
      if (if lines then illegalInLines c else illegalInLine c) then none
      else (basicText? lines fuel rest).map fun (text, tail) => (c :: text, tail)

def literalText? (cs : List Char) : Option (List Char × List Char) :=
  let text := cs.takeWhile (· != '\x27')
  match cs.dropWhile (· != '\x27') with
  | _ :: tail => if text.any illegalInLine then none else some (text, tail)
  | [] => none

/-- The text of a literal string over several lines, up to its three quotes. -/
def literalLines? : List Char → Option (List Char × List Char)
  | [] => none
  | '\x27' :: '\x27' :: '\x27' :: tail => some ([], tail)
  | c :: rest =>
    if illegalInLines c then none
    else (literalLines? rest).map fun (text, tail) => (c :: text, tail)

/-- Up to two quotes directly behind the closing ones belong to the text. -/
def extraQuotes (quote : Char) (text : List Char) : List Char → List Char × List Char
  | c :: d :: rest =>
    if c = quote ∧ d = quote then (text ++ [quote, quote], rest)
    else if c = quote then (text ++ [quote], d :: rest)
    else (text, c :: d :: rest)
  | [c] => if c = quote then (text ++ [quote], []) else (text, [c])
  | [] => (text, [])

/-- A new line directly behind the opening quotes does not belong to the text. -/
def skipNewline : List Char → List Char
  | '\n' :: rest => rest
  | cs => cs

def lineString? : List Char → Option (List Char × List Char)
  | '\x22' :: rest => basicText? false (rest.length + 1) rest
  | '\x27' :: rest => literalText? rest
  | _ => none

def string? : List Char → Option (List Char × List Char)
  | '\x22' :: '\x22' :: '\x22' :: rest =>
    (basicText? true (rest.length + 1) (skipNewline rest)).map fun (text, tail) =>
      extraQuotes '\x22' text tail
  | '\x27' :: '\x27' :: '\x27' :: rest =>
    (literalLines? (skipNewline rest)).map fun (text, tail) => extraQuotes '\x27' text tail
  | cs => lineString? cs

/-- The digits after the first one, with single underscores between them, and what follows. -/
def moreDigits (isDigit : Char → Bool) : List Char → List Char × List Char
  | '_' :: c :: rest =>
    if isDigit c then let (ds, tail) := moreDigits isDigit rest; (c :: ds, tail)
    else ([], '_' :: c :: rest)
  | c :: rest =>
    if isDigit c then let (ds, tail) := moreDigits isDigit rest; (c :: ds, tail)
    else ([], c :: rest)
  | [] => ([], [])

def digits? (isDigit : Char → Bool) : List Char → Option (List Char × List Char)
  | c :: rest =>
    if isDigit c then let (ds, tail) := moreDigits isDigit rest; some (c :: ds, tail) else none
  | [] => none

def ofDigits (base : Nat) (ds : List Char) : Nat :=
  ds.foldl (fun n c => base * n + (Text.hexDigit? c).getD 0) 0

/-- The base that a letter behind a zero stands for. -/
def base? : Char → Option Nat
  | 'x' => some 16
  | 'o' => some 8
  | 'b' => some 2
  | _ => none

def isDigitOf (base : Nat) (c : Char) : Bool := (Text.hexDigit? c).any (· < base)

def basedNumber? : List Char → Option (Value × List Char)
  | '0' :: letter :: rest => do
    let base ← base? letter
    let (ds, tail) ← digits? (isDigitOf base) rest
    some (.int (ofDigits base ds), tail)
  | _ => none

/-- The digits before the point: a lone zero, or digits that do not start with one. -/
def whole? : List Char → Option (List Char × List Char)
  | '0' :: rest => some (['0'], rest)
  | cs => digits? Json.isDigit cs

def fraction? : List Char → Option (List Char × List Char)
  | '.' :: rest => digits? Json.isDigit rest
  | _ => none

def exponent? : List Char → Option (Int × List Char)
  | e :: rest =>
    if e = 'e' ∨ e = 'E' then
      let (negative, rest) := Decimal.signOf rest
      (digits? Json.isDigit rest).map fun (ds, tail) =>
        (Decimal.signed negative (ofDigits 10 ds), tail)
    else none
  | [] => none

/-- A decimal number. The fault of one with too many digits is a part of what was read. -/
def decimalNumber? (cs : List Char) : Option (Except Fault Value × List Char) := do
  let (negative, rest) := Decimal.signOf cs
  let (whole, rest) ← whole? rest
  match fraction? rest, exponent? rest with
  | none, none => some (Json.wholeNumber negative whole, rest)
  | none, some (exponent, rest) =>
    some (.ok (.float (Decimal.Binary64.ofDecimal negative (ofDigits 10 whole) exponent)), rest)
  | some (places, rest), _ =>
    let (exponent, rest) := (exponent? rest).getD (0, rest)
    some (.ok (.float (Decimal.Binary64.ofDecimal negative (ofDigits 10 (whole ++ places))
      (exponent - places.length))), rest)

def words : List (List Char × Value) := [
  ("true".toList, .bool true), ("false".toList, .bool false)]

def floatWords : List (List Char × Value) := [
  ("inf".toList, .float (1 / 0)), ("+inf".toList, .float (1 / 0)), ("-inf".toList, .float (-1 / 0)),
  ("nan".toList, .float (0 / 0)), ("+nan".toList, .float (0 / 0)), ("-nan".toList, .float (0 / 0))]

def wordOf? (table : List (List Char × Value)) (cs : List Char) : Option (Value × List Char) :=
  table.findSome? fun (word, value) => (word.isPrefixOf? cs).map (value, ·)

abbrev Read := Except Fault (Value × List Char)

def number (cs : List Char) : Read :=
  match basedNumber? cs, decimalNumber? cs, wordOf? floatWords cs with
  | some found, _, _ => .ok found
  | none, some (value, rest), _ => value.map (·, rest)
  | none, none, found => found.elim (.error .malformedToml) .ok

/-- So many decimal digits, and their value. -/
def fixedDigits? (count : Nat) (cs : List Char) : Option (Nat × List Char) :=
  let ds := cs.take count
  if ds.length = count ∧ ds.all Json.isDigit then some (Json.digitsOf ds, cs.drop count) else none

def skip? (c : Char) : List Char → Option (List Char)
  | d :: rest => if d = c then some rest else none
  | [] => none

def twoDigits? (low high : Nat) (cs : List Char) : Option (Nat × List Char) := do
  let (n, rest) ← fixedDigits? 2 cs
  if low ≤ n ∧ n ≤ high then some (n, rest) else none

/-- Year, month and day, the day not yet compared with the length of the month. -/
def day? (cs : List Char) : Option (Day × List Char) := do
  let (year, rest) ← fixedDigits? 4 cs
  let (month, rest) ← twoDigits? 1 12 (← skip? '-' rest)
  let (day, rest) ← twoDigits? 1 31 (← skip? '-' rest)
  some (⟨year, month, day⟩, rest)

/-- The millionths that the digits of a fraction are; digits beyond the sixth do not count. -/
def millionths (digits : List Char) : Nat :=
  Json.digitsOf ((digits ++ List.replicate 6 '0').take 6)

/-- The millionths behind a point, none if there is no point with digits behind it. -/
def microsecond (cs : List Char) : Nat × List Char :=
  match cs with
  | '.' :: rest =>
    let digits := rest.takeWhile Json.isDigit
    if digits.isEmpty then (0, cs) else (millionths digits, rest.dropWhile Json.isDigit)
  | cs => (0, cs)

def time? (cs : List Char) : Option (TimeOfDay × List Char) := do
  let (hour, rest) ← twoDigits? 0 23 cs
  let (minute, rest) ← twoDigits? 0 59 (← skip? ':' rest)
  let (second, rest) ← twoDigits? 0 59 (← skip? ':' rest)
  let (microsecond, rest) := microsecond rest
  some (⟨hour, minute, second, microsecond⟩, rest)

def minutes? (cs : List Char) : Option (Nat × List Char) := do
  let (hours, rest) ← twoDigits? 0 23 cs
  let (minutes, rest) ← twoDigits? 0 59 (← skip? ':' rest)
  some (60 * hours + minutes, rest)

def offset (cs : List Char) : Option Int × List Char :=
  match cs with
  | 'Z' :: rest | 'z' :: rest => (some 0, rest)
  | '+' :: rest | '-' :: rest =>
    match minutes? rest with
    | some (minutes, rest) => (some (Decimal.signed (cs.head? == some '-') minutes), rest)
    | none => (none, cs)
  | cs => (none, cs)

def timeBehind? : List Char → Option (TimeOfDay × List Char)
  | c :: rest => if c = 'T' ∨ c = 't' ∨ c = ' ' then time? rest else none
  | [] => none

/-- The moment that starts here, and what follows it. Its day may not be in the calendar. -/
def moment? (cs : List Char) : Option (Moment × List Char) :=
  match day? cs with
  | some (day, rest) =>
    match timeBehind? rest with
    | some (time, rest) =>
      let (offset, rest) := offset rest
      some (.datetime day time offset, rest)
    | none => some (.date day, rest)
  | none => (time? cs).map fun (time, rest) => (.time time, rest)

def isInCalendar : Moment → Bool
  | .date day | .datetime day .. => day.isInCalendar
  | .time _ => true

/-- A value that is not a string, a list or a table. -/
def scalar (cs : List Char) : Read :=
  match wordOf? words cs, moment? cs with
  | some found, _ => .ok found
  | none, some (m, rest) => if isInCalendar m then .ok (.moment m, rest) else .error .malformedToml
  | none, none => number cs

end SparseWeights.Toml
