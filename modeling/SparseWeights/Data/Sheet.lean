import SparseWeights.Data.Csv
import SparseWeights.Data.Tensor
import SparseWeights.Decimal.Clipped
import SparseWeights.Decimal.Shortest
import SparseWeights.Fault

/-!
Sheets: tables whose columns have names, and whose rows may have labels. In a file the first line names
the columns. The first row of cells may be wider than the names; the columns in front are then labels.
A later row that is wider is a fault, and a shorter one ends in missing cells. A column is a column of
truth values if every cell that is not missing is one. A column of whole numbers, of which one takes all
bits of an unsigned word, has no room for signs or missing cells; if it holds one, all its cells are
texts. Of the numbers in a column of numbers, some of which are not whole, only the first digits count.
-/

namespace SparseWeights

inductive Cell where
  | missing
  | truth (b : Bool)
  | number (x : Float)
  | text (s : String)

namespace Cell

def missingTexts : List String := ["", "#N/A", "#N/A N/A", "#NA", "-1.#IND", "-1.#QNAN", "-NaN", "-nan",
  "1.#IND", "1.#QNAN", "<NA>", "N/A", "NA", "NULL", "NaN", "None", "n/a", "nan", "null"]

def isMissing (s : String) : Bool := missingTexts.contains s

def truth? (s : String) : Option Bool :=
  if s.toLower = "true" then some true else if s.toLower = "false" then some false else none

/-- A cell as a double; a missing one is NaN. -/
def toFloat : Cell → Except Fault Float
  | .missing => .ok (0 / 0)
  | .truth b => .ok (if b then 1 else 0)
  | .number x => .ok x
  | .text s => (Decimal.readFloat? s).elim (.error .unreadable) .ok

def field : Cell → String
  | .missing => ""
  | .truth b => if b then "True" else "False"
  | .number x => if x.isNaN then "" else Decimal.shortest x
  | .text s => s

end Cell

/-- Rows of cells under named columns. A row without a label, or with a missing one, has none. -/
structure Sheet where
  columns : List String
  rows : List (Option String × List Cell)

namespace Sheet

def unnamed (i : Nat) : String := "Unnamed: " ++ Decimal.natText i

abbrev Counts := List (String × Nat)

def Counts.get (counts : Counts) (name : String) : Nat :=
  ((counts.find? fun count => count.1 == name).map (·.2)).getD 0

def Counts.put (counts : Counts) (name : String) (n : Nat) : Counts := (name, n) :: counts

/-- The first of the names `name.count`, `name.(count + 1)` and so on that is free. -/
def freeName (taken : List String) (counts : Counts) (old : String) :
    Nat → Nat → String → String × Counts
  | 0, _, name => (name, counts)
  | fuel + 1, count, name =>
    if count = 0 then (name, counts)
    else
      let counts := counts.put old (count + 1)
      let name := old ++ "." ++ Decimal.natText count
      freeName taken counts old fuel (if taken.contains name then count + 1 else counts.get name) name

/-- Gives the column at a place a name that no other column has. -/
def renameAt (state : List String × Counts) (i : Nat) : List String × Counts :=
  let (names, counts) := state
  let old := names.getD i ""
  let (name, counts) := freeName names counts old (names.length + 2) (counts.get old) old
  (names.set i name, counts.put name (counts.get name + 1))

/-- The names of the columns: those without a name are numbered, and a name that was given before gets a
number behind it. -/
def columnNames (header : List String) : List String :=
  let numbered := header.zipIdx.map fun (name, i) => if name = "" then unnamed i else name
  let places := List.range header.length
  let named := places.filter fun i => header.getD i "" ≠ ""
  let blank := places.filter fun i => header.getD i "" = ""
  ((named ++ blank).foldl renameAt (numbered, [])).1

def padded (width : Nat) (row : List String) : List String :=
  row ++ List.replicate (width - row.length) ""

/-- Rows of the width that the first one sets, if it is wider than the header. -/
def evenRows? (headerWidth : Nat) (rows : List (List String)) : Option (List (List String)) :=
  let width := max headerWidth ((rows.head?.map List.length).getD 0)
  if rows.all fun row => row.length ≤ width then some (rows.map (padded width)) else none

/-- How a field fits as a whole number. -/
inductive Fit where
  | number (n : Int)
  | beyond
  | none
  deriving DecidableEq

def fitWithin (least most : Int) (s : String) : Fit :=
  let (negative, rest) := Decimal.signOf (s.toList.dropWhile Decimal.isAsciiSpace)
  let (digits, rest) := Decimal.asciiDigits rest
  let n := Decimal.signed negative (Decimal.ofDigits digits)
  if digits.isEmpty then .none
  else if n < least ∨ most < n then .beyond
  else if rest.all Decimal.isAsciiSpace then .number n
  else .none

def signedBound : Int := Decimal.pow2 63

def signedFit (s : String) : Fit := fitWithin (-signedBound) (signedBound - 1) s

/-- A field as an unsigned word; anything with a minus sign counts as one below zero. -/
def unsignedFit (s : String) : Fit :=
  if (s.toList.dropWhile Decimal.isAsciiSpace).head? = some '-' then .number (-1)
  else fitWithin 0 (2 * signedBound - 1) s

def Fit.any (p : Int → Bool) : Fit → Bool
  | .number n => p n
  | .beyond | .none => false

/-- What keeps fields from being whole numbers: the first of them that is none. -/
def firstMisfit? (fits : List Fit) : Option Fit := fits.find? fun fit => !fit.any fun _ => true

/-- Whether fields are words, but need unsigned ones that have no room for all of them. -/
def overflows (fields words : List String) : Bool :=
  let fits := words.map unsignedFit
  firstMisfit? (words.map signedFit) = some .beyond && firstMisfit? fits = none &&
    fits.any (·.any fun n => decide (signedBound ≤ n)) &&
    (words.length < fields.length || fits.any (·.any fun n => decide (n < 0)))

def areDecimals (words : List String) : Bool :=
  let misfit? :=
    match firstMisfit? (words.map signedFit) with
    | some .beyond => firstMisfit? (words.map unsignedFit)
    | misfit? => misfit?
  misfit? = some .none && words.all fun s => (Decimal.readClipped? s).isSome

inductive ColumnKind where
  | truths
  | decimals
  /-- Numbers or texts; either are read when they are asked for. -/
  | mixed
  /-- Texts, even those that would stand for missing cells. -/
  | texts

def kindOf (fields : List String) : ColumnKind :=
  let words := fields.filter fun s => !Cell.isMissing s
  if words.all fun s => (Cell.truth? s).isSome then .truths
  else if overflows fields words then .texts
  else if areDecimals words then .decimals
  else .mixed

def cellOf (kind : ColumnKind) (s : String) : Cell :=
  match kind with
  | .texts => .text s
  | kind =>
    if Cell.isMissing s then .missing
    else
      match kind, Cell.truth? s, Decimal.readClipped? s with
      | .truths, some b, _ => .truth b
      | .decimals, _, some x => .number x
      | _, _, _ => .text s

def cellsOf (width : Nat) (rows : List (List String)) : List (List Cell) :=
  let kinds := (List.range width).map fun j => kindOf (rows.map fun row => row.getD j "")
  rows.map fun row => List.zipWith cellOf kinds row

/-- The sheet of a file. A labelled one has its labels in the first column, unless a wider first row
has brought them. -/
def ofText (labelled : Bool) (s : String) : Except Fault Sheet :=
  match Csv.lines? s with
  | none => .error .raggedTable
  | some [] => .error .emptyTable
  | some (header :: rows) =>
    match evenRows? header.length rows with
    | none => .error .raggedTable
    | some rows =>
      let names := columnNames header
      let leading := ((rows.head?.map List.length).getD 0) - header.length
      if labelled && 1 < leading then .error .raggedTable
      else
        let labels := if labelled then 1 else leading
        let columns := if labelled && leading = 0 then names.drop 1 else names
        let label (row : List String) : Option String :=
          row.head?.filter fun s => labelled && !Cell.isMissing s
        .ok {
          columns
          rows := (rows.map label).zip (cellsOf columns.length (rows.map (·.drop labels))) }

/-- A sheet as a file; labels are written in front of their rows. -/
def write (labelled : Bool) (sheet : Sheet) : String :=
  let front (label : String) (fields : List String) : List String :=
    if labelled then label :: fields else fields
  Csv.write (front "" sheet.columns ::
    sheet.rows.map fun (label, cells) => front (label.getD "") (cells.map Cell.field))

def cells (row : List Float) : List Cell := row.map .number

/-- The rows and columns of an array that a sheet can hold. A single axis is a column. -/
def table? : List Nat → Option (Nat × Nat)
  | [m] => some (m, 1)
  | [m, n] => some (m, n)
  | _ => none

/-- The sheet of an array; without labels its rows are numbered. There has to be a label for every row and
a name for every column. -/
def ofTensor (labels? : Option (List String)) (columns : List String) (t : Tensor Float) :
    Except Fault Sheet := do
  let (m, n) ← (table? t.shape).elim (.error .shapeMismatch) .ok
  let labels := labels?.getD ((List.range m).map Decimal.natText)
  if labels.length = m ∧ columns.length = n then
    return ⟨columns, (labels.map some).zip ((Tensor.pieces n m t.entries).map cells)⟩
  else .error .shapeMismatch

/-- Puts cells into the column of a name, or into a new one behind the others. -/
def putColumn (name : String) (cells : List Cell) (sheet : Sheet) : Except Fault Sheet :=
  if cells.length = sheet.rows.length then
    match sheet.columns.idxOf? name with
    | some j => .ok ⟨sheet.columns,
        List.zipWith (fun row cell => (row.1, row.2.set j cell)) sheet.rows cells⟩
    | none => .ok ⟨sheet.columns ++ [name],
        List.zipWith (fun row cell => (row.1, row.2 ++ [cell])) sheet.rows cells⟩
  else .error .shapeMismatch

/-- Puts cells into the rows of a label, or into a new one below the others. -/
def putRow (label : String) (cells : List Cell) (sheet : Sheet) : Except Fault Sheet :=
  if cells.length = sheet.columns.length then
    if sheet.rows.any fun row => row.1 == some label then
      .ok ⟨sheet.columns,
        sheet.rows.map fun row => if row.1 == some label then (row.1, cells) else row⟩
    else .ok ⟨sheet.columns, sheet.rows ++ [(some label, cells)]⟩
  else .error .shapeMismatch

def rowsAt (sheet : Sheet) (label : String) : List (List Cell) :=
  (sheet.rows.filter fun row => row.1 == some label).map (·.2)

/-- The rows with the given labels, in the order of the labels; each label has to have one. -/
def select (sheet : Sheet) : List String → Except Fault (List (List Cell))
  | [] => .ok []
  | label :: rest =>
    match sheet.rowsAt label with
    | [] => .error .noLabel
    | rows => (rows ++ ·) <$> sheet.select rest

def dropRows (sheet : Sheet) (label : String) : Sheet :=
  { sheet with rows := sheet.rows.filter fun row => row.1 != some label }

def columnIndex? (sheet : Sheet) (name : String) : Option Nat := sheet.columns.idxOf? name

end Sheet

end SparseWeights
