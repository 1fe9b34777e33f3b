import SparseWeights.Diagnostics.Record
import SparseWeights.Error
import SparseWeights.Text.Template

/-!
The table of the iterations. Its header is printed in front of the first record that it receives; of the
records that follow it prints the first and every so many. A number of an iteration that cannot be
printed is a fault, found after the header. A text in the place of the number is a template for the
distance between rows. A table whose level of importance is no number prints nothing.
-/

namespace SparseWeights

inductive TableLine (ι α : Type) where
  | title (text : String)
  | header
  | rule
  | row (record : Record ι α)

structure Table where
  title : String
  every : Int
  level : Value
  started : Bool

namespace Table

def usualLevel : Int := 20

/-- A table that has received nothing. The distance between rows is at least one. -/
def new (title : String) (every : Int) (level : Value) : Table := ⟨title, max 1 every, level, false⟩

/-- The columns of the table: their titles and widths. -/
def columns : List (String × Nat) := [
  ("iter", 6), ("obj_p", 13), ("obj_d", 13), ("pdgap", 10), ("infeas_p", 10), ("infeas_d", 10),
  ("rho", 9)]

def spaced (texts : List String) : String := " ".intercalate texts

def headerText : String := spaced (columns.map fun (title, width) => Decimal.padLeft width title)

def ruleText : String := String.ofList (List.replicate headerText.length '-')

def rowText (r : Record Int Float) : String :=
  spaced [Decimal.padLeft 6 (Decimal.intText r.iteration),
    Decimal.padLeft 13 (Decimal.scientific 6 r.primal),
    Decimal.padLeft 13 (Decimal.scientific 6 r.dual),
    Decimal.padLeft 10 (Decimal.scientific 3 r.gap),
    Decimal.padLeft 10 (Decimal.scientific 3 r.primalResidual),
    Decimal.padLeft 10 (Decimal.scientific 3 r.dualResidual),
    Decimal.padLeft 9 (Decimal.scientific 2 r.rho)]

def lineText : TableLine Int Float → String
  | .title text => text
  | .header => headerText
  | .rule => ruleText
  | .row record => rowText record

def isMultiple (x y : Float) : Bool :=
  let a := Decimal.Binary64.ofFloat x
  let b := Decimal.Binary64.ofFloat y
  a.num * b.den % (b.num * a.den) == 0

def isDue (every : Int) : Value → Except Fault Bool
  | .int n => .ok (n % every = 0 || n = 1)
  | .bool b => .ok (b || (0 : Int) % every = 0)
  | .float x => do
    let step ← (Value.int every).toFloat
    .ok (x.isFinite && (isMultiple x step || x == 1))
  | .text s => Template.isBlank s every
  | _ => .error .wrongType

def rowNumber : Value → Except Fault Int
  | .int n => .ok n
  | .bool b => .ok (if b then 1 else 0)
  | .float _ | .text _ => .error .unreadable
  | _ => .error .wrongType

def row? (every : Int) (r : Record Value Float) : Except Fault (Option (Record Int Float)) := do
  if ← isDue every r.iteration then
    let number ← rowNumber r.iteration
    .ok (some (r.map (fun _ => number) id))
  else .ok none

def opening {ι α : Type} (table : Table) : List (TableLine ι α) :=
  if table.started then [] else [.title table.title, .header, .rule]

/-- Receives a record: the lines that are printed, and the fault that ends them, if there is one. -/
def receive (table : Table) (r : Record Value Float) :
    Table × List (TableLine Int Float) × Option Fault :=
  let after := { table with started := true }
  match table.level.toSize, row? table.every r with
  | .error cause, _ => (table, [], some cause)
  | .ok _, .ok row => (after, table.opening ++ (row.map TableLine.row).toList, none)
  | .ok _, .error cause => (after, table.opening, some cause)

/-- The name of a level; levels without a name go by their number. -/
def levelName (level : Value) : String :=
  match level with
  | .int 10 => "DEBUG"
  | .int 20 => "INFO"
  | .int 30 => "WARNING"
  | .int 40 => "ERROR"
  | level => "Level " ++ level.display

/-- Whether lines of a level are seen: the level has to be positive, and to reach the threshold if there
is one. -/
def isSeen (level threshold : Value) : Bool :=
  match level.toSize, threshold.toSize with
  | .ok level, .ok least => 0 < level && least ≤ level
  | .ok level, .error _ => 0 < level
  | .error _, _ => false

def linesFor {ι α : Type} (title : String) : List (Record ι α) → List (TableLine ι α)
  | [] => []
  | records => (Table.new title 1 (.int usualLevel)).opening ++ records.map .row

end Table

end SparseWeights
