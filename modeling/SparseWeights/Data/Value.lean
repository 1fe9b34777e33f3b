import SparseWeights.Data.Moment
import SparseWeights.Decimal.Shortest
import SparseWeights.Fault
import SparseWeights.Text.Printable

/-!
Values as configuration files hold them, and as callers hand them in: nothing, truth values, unbounded
whole numbers, doubles, texts, lists, records and moments of time. A record keeps its fields in the order
in which they were first written.
-/

namespace SparseWeights

inductive Value where
  | null
  | bool (b : Bool)
  | int (n : Int)
  | float (x : Float)
  | text (s : String)
  | list (items : List Value)
  | record (fields : List (String × Value))
  | moment (m : Moment)
  deriving Repr, Inhabited

abbrev Fields := List (String × Value)

namespace Fields

def get? (fields : Fields) (name : String) : Option Value :=
  (fields.find? fun field => field.1 == name).map (·.2)

def has (fields : Fields) (name : String) : Bool := fields.any fun field => field.1 == name

/-- Gives a field a value: in its place if the field is there, at the end if it is not. -/
def put (name : String) (value : Value) : Fields → Fields
  | [] => [(name, value)]
  | field :: rest =>
    if field.1 = name then (name, value) :: rest else field :: put name value rest

def erase (fields : Fields) (name : String) : Fields := fields.filter fun field => field.1 != name

def ofList (fields : List (String × Value)) : Fields :=
  fields.foldl (fun all field => put field.1 field.2 all) []

end Fields

namespace Value

/-- Whether a value counts as true: all do but nothing, false, zero and what is empty. -/
def isTruthy : Value → Bool
  | .null => false
  | .bool b => b
  | .int n => n != 0
  | .float x => x != 0
  | .text s => !s.isEmpty
  | .list items => !items.isEmpty
  | .record fields => !fields.isEmpty
  | .moment _ => true

def hexPadded (width n : Nat) : List Char :=
  let digits := Nat.toDigits 16 n
  List.replicate (width - digits.length) '0' ++ digits

def escaped (quote c : Char) : List Char :=
  if c = '\\' then ['\\', '\\']
  else if c = quote then ['\\', quote]
  else if c = '\n' then ['\\', 'n']
  else if c = '\r' then ['\\', 'r']
  else if c = '\t' then ['\\', 't']
  else if Text.isPrintable c then [c]
  else if c.toNat < 0x100 then '\\' :: 'x' :: hexPadded 2 c.toNat
  else if c.toNat < 0x10000 then '\\' :: 'u' :: hexPadded 4 c.toNat
  else '\\' :: 'U' :: hexPadded 8 c.toNat

/-- A text in single quotes, or in double quotes if it holds single ones and no double ones. -/
def quoted (s : String) : String :=
  let cs := s.toList
  let quote := if cs.contains '\x27' && !cs.contains '\x22' then '\x22' else '\x27'
  String.ofList (quote :: cs.flatMap (escaped quote) ++ [quote])

def commaSeparated (texts : List String) : String := ", ".intercalate texts

mutual

def literal : Value → String
  | .null => "None"
  | .bool b => if b then "True" else "False"
  | .int n => Decimal.intText n
  | .float x => Decimal.shortest x
  | .text s => quoted s
  | .list items => "[" ++ commaSeparated (literals items) ++ "]"
  | .record fields => "\x7b" ++ commaSeparated (literalFields fields) ++ "\x7d"
  | .moment m => m.literal

def literals : List Value → List String
  | [] => []
  | item :: rest => literal item :: literals rest

def literalFields : List (String × Value) → List String
  | [] => []
  | (name, value) :: rest => (quoted name ++ ": " ++ literal value) :: literalFields rest

end

mutual

/-- The notation of a value with lists and records at most so deep in each other. Whole numbers of too many
digits have none. -/
def print (levels : Nat) : Value → Except Fault String
  | .int n =>
    if n.natAbs < Decimal.pow10 Decimal.maxDigits then .ok (Decimal.intText n)
    else .error .unreadable
  | .list items =>
    match levels with
    | 0 => .error .tooDeep
    | levels + 1 => do return "[" ++ commaSeparated (← printItems levels items) ++ "]"
  | .record fields =>
    match levels with
    | 0 => .error .tooDeep
    | levels + 1 => do return "\x7b" ++ commaSeparated (← printFields levels fields) ++ "\x7d"
  | value => .ok value.literal

def printItems (levels : Nat) : List Value → Except Fault (List String)
  | [] => .ok []
  | item :: rest => do
    let text ← print levels item
    return text :: (← printItems levels rest)

def printFields (levels : Nat) : List (String × Value) → Except Fault (List String)
  | [] => .ok []
  | (name, value) :: rest => do
    let text ← print levels value
    return (quoted name ++ ": " ++ text) :: (← printFields levels rest)

end

/-- A text as it is, a moment as a plain text, and any other value in the notation of messages. -/
def display : Value → String
  | .text s => s
  | .moment m => m.text
  | value => literal value

end Value

end SparseWeights
