import SparseWeights.Data.Value

/-!
Values written as JSON, indented by two blanks a level. Doubles are the shortest decimals that read back.
Moments of time have no JSON form, and lists and records are followed only so deep: writing stops in front
of the first value that cannot be written, and what was written until then is kept, because it has already
reached the file.
-/

namespace SparseWeights.Json

/-- What has been written, and why writing has stopped, if it has. -/
structure Written where
  text : String
  stop? : Option Fault
  deriving DecidableEq, Repr

namespace Written

def of (text : String) : Written := ⟨text, none⟩

def stopped (cause : Fault) : Written := ⟨"", some cause⟩

def andThen (first second : Written) : Written :=
  match first.stop? with
  | none => ⟨first.text ++ second.text, second.stop?⟩
  | some _ => first

end Written

def unicodeEscape (n : Nat) : List Char := '\\' :: 'u' :: Value.hexPadded 4 n

def escapedChar (c : Char) : List Char :=
  if c = '\x22' then ['\\', '\x22']
  else if c = '\\' then ['\\', '\\']
  else if c = '\n' then ['\\', 'n']
  else if c = '\r' then ['\\', 'r']
  else if c = '\t' then ['\\', 't']
  else if c = '\x0c' then ['\\', 'f']
  else if c = '\x08' then ['\\', 'b']
  else if c.toNat < 0x20 then unicodeEscape c.toNat
  else [c]

def stringText (s : String) : String :=
  String.ofList ('\x22' :: s.toList.flatMap escapedChar ++ ['\x22'])

def floatText (x : Float) : String :=
  if x.isNaN then "NaN"
  else if x.isInf then (if x < 0 then "-Infinity" else "Infinity")
  else Decimal.shortest x

def newline (level : Nat) : String := "\n" ++ String.ofList (List.replicate (2 * level) ' ')

mutual

/-- A value at a level of indentation, which is also how deep it lies in others. -/
def writeValue (deepest level : Nat) : Value → Written
  | .null => .of "null"
  | .bool b => .of (if b then "true" else "false")
  | .int n => .of (Decimal.intText n)
  | .float x => .of (floatText x)
  | .text s => .of (stringText s)
  | .moment .. => .stopped .wrongType
  | .list [] => if level < deepest then .of "[]" else .stopped .tooDeep
  | .list (item :: rest) =>
    if level < deepest then
      (((Written.of ("[" ++ newline (level + 1))).andThen
        (writeValue deepest (level + 1) item)).andThen
        (writeItems deepest (level + 1) rest)).andThen (.of (newline level ++ "]"))
    else .stopped .tooDeep
  | .record [] => if level < deepest then .of "\x7b\x7d" else .stopped .tooDeep
  | .record ((name, value) :: rest) =>
    if level < deepest then
      (((Written.of ("\x7b" ++ newline (level + 1) ++ stringText name ++ ": ")).andThen
        (writeValue deepest (level + 1) value)).andThen
        (writeFields deepest (level + 1) rest)).andThen (.of (newline level ++ "\x7d"))
    else .stopped .tooDeep

def writeItems (deepest level : Nat) : List Value → Written
  | [] => .of ""
  | item :: rest =>
    ((Written.of ("," ++ newline level)).andThen (writeValue deepest level item)).andThen
      (writeItems deepest level rest)

def writeFields (deepest level : Nat) : List (String × Value) → Written
  | [] => .of ""
  | (name, value) :: rest =>
    ((Written.of ("," ++ newline level ++ stringText name ++ ": ")).andThen
      (writeValue deepest level value)).andThen (writeFields deepest level rest)

end

/-- A value as a JSON text, with lists and records at most so deep in each other. -/
def writeWithin (levels : Nat) (value : Value) : Written := writeValue levels 0 value

end SparseWeights.Json
