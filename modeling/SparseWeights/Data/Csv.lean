/-!
Comma separated values. A line is a list of fields; a field may stand in double quotes, and then it may
hold commas and new lines, and quotes written twice. A carriage return ends a line as a new line does,
and both together end one line. Lines without anything but blanks are skipped. Reading fails only where
a quote is left open.
-/

namespace SparseWeights.Csv

/-- Where in a line the reader stands. -/
inductive Place where
  | fieldStart
  | inField
  | inQuotes
  /-- Behind a quote inside a quoted field: its end, or one half of a quote written twice. -/
  | afterQuote

/-- What has been read of a line, everything in reverse. -/
structure Reading where
  fields : List String := []
  chars : List Char := []

namespace Reading

def push (r : Reading) (c : Char) : Reading := { r with chars := c :: r.chars }

/-- The text of a field ends in front of the first NUL. -/
def endField (r : Reading) : Reading where
  fields := String.ofList (r.chars.reverse.takeWhile (· != '\x00')) :: r.fields

def line (r : Reading) : List String := r.endField.fields.reverse

end Reading

def isLineEnd (c : Char) : Bool := c == '\n' || c == '\r'

def step (place : Place) (r : Reading) (c : Char) : Place × Reading :=
  let plain := if c = ',' then (Place.fieldStart, r.endField) else (.inField, r.push c)
  match place with
  | .fieldStart => if c = '\x22' then (.inQuotes, r) else plain
  | .inField => plain
  | .inQuotes => if c = '\x22' then (.afterQuote, r) else (.inQuotes, r.push c)
  | .afterQuote => if c = '\x22' then (.inQuotes, r.push c) else plain

/-- A new line that belongs to the carriage return in front of it. -/
def skipNewline : List Char → List Char
  | '\n' :: rest => rest
  | cs => cs

/-- The fields up to the end of the line, and what follows it; `none` if a quote is open at the end. -/
def lineFrom? : Place → Reading → List Char → Option (List String × List Char)
  | .inQuotes, _, [] => none
  | .inQuotes, r, c :: rest =>
    let (place, r) := step .inQuotes r c
    lineFrom? place r rest
  | _, r, [] => some (r.line, [])
  | _, r, '\n' :: rest => some (r.line, rest)
  | _, r, '\r' :: rest => some (r.line, skipNewline rest)
  | place, r, c :: rest =>
    let (place, r) := step place r c
    lineFrom? place r rest

inductive Skipped where
  | nothing
  | blanks
  /-- A carriage return that ended a line without fields. -/
  | carriageReturn

/-- Where the fields of the next line start. A line that starts with blanks starts at its first one, or
behind the last new line if only carriage returns lie between. A comma directly behind a carriage return
that ended a line without fields is skipped as a new line would be. -/
def lineStart? (line : List Char) : Skipped → List Char → Option (List Char)
  | _, [] => none
  | _, '\n' :: rest => lineStart? rest .nothing rest
  | _, '\r' :: rest => lineStart? line .carriageReturn rest
  | .carriageReturn, ',' :: rest => lineStart? line .nothing rest
  | .blanks, c :: rest =>
    if c = ' ' ∨ c = '\t' then lineStart? line .blanks rest else some line
  | _, c :: rest =>
    if c = ' ' ∨ c = '\t' then lineStart? line .blanks rest else some (c :: rest)

/-- All lines of a text; each takes at least one step. -/
def linesFrom? : Nat → List Char → Option (List (List String))
  | 0, _ => some []
  | fuel + 1, cs =>
    match lineStart? cs .nothing cs with
    | none => some []
    | some cs => do
      let (fields, rest) ← lineFrom? .fieldStart {} cs
      let lines ← linesFrom? fuel rest
      some (fields :: lines)

/-- The lines of a text. A mark of the byte order at its start does not count. -/
def lines? (s : String) : Option (List (List String)) :=
  match s.toList with
  | '\ufeff' :: rest => linesFrom? (rest.length + 1) rest
  | cs => linesFrom? (cs.length + 1) cs

def needsQuotes (field : String) : Bool :=
  field.toList.any fun c => c == ',' || c == '\x22' || isLineEnd c

def fieldText (field : String) : String :=
  if needsQuotes field then
    "\x22" ++ String.ofList (field.toList.flatMap fun c => if c = '\x22' then [c, c] else [c]) ++ "\x22"
  else field

def write (lines : List (List String)) : String :=
  String.join (lines.map fun fields => ",".intercalate (fields.map fieldText) ++ "\n")

end SparseWeights.Csv
