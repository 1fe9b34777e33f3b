import SparseWeights.Data.Sheet
import SparseWeights.Solve

/-!
A study: a problem that is described by a configuration, with its data in a sheet. The sheet of a
regression has a column for the response, and all others are features. The sheet of a portfolio has a
row of expected returns under the label `mu`, and for each column a row of the covariance under the label
of that column, in any order, among any other rows.
-/

namespace SparseWeights

namespace Sheet

def numbers (cells : List Cell) : Except Fault (List Float) := cells.mapM Cell.toFloat

def array (width : Nat) (rows : List (List Float)) : Except Fault (Tensor Float) :=
  (Tensor.ofEntries? [rows.length, width] rows.flatten).elim (.error .shapeMismatch) .ok

structure Data where
  labels : List String
  /-- The design or the covariance. -/
  matrix : Tensor Float
  /-- The response or the expected returns. -/
  vector : Tensor Float

/-- The features and the response of a regression, of which the response is in the column at a place. -/
def splitAt (sheet : Sheet) (place : Nat) : Except Fault Data := do
  let labels := sheet.columns.eraseIdx place
  let features ← sheet.rows.mapM fun row => numbers (row.2.eraseIdx place)
  let matrix ← array labels.length features
  let responses ← numbers (sheet.rows.map fun row => (row.2[place]?).getD .missing)
  return { labels, matrix, vector := .ofList responses }

def regression (sheet : Sheet) (response : String) : Except Error Data :=
  match sheet.columnIndex? response with
  | none => .error (.rejected (.responseMissing response))
  | some place => liftM (sheet.splitAt place)

/-- The expected returns in one row, or in more. -/
def means (width : Nat) (rows : List (List Cell)) : Except Fault (Tensor Float) := do
  let rows ← rows.mapM numbers
  match rows with
  | [row] => return .ofList row
  | rows => array width rows

/-- The covariance and the expected returns of a portfolio, of which the returns are in the given rows. A
label that is given twice brings both of its rows. -/
def align (sheet : Sheet) (meanRows : List (List Cell)) : Except Fault Data := do
  let width := sheet.columns.length
  let vector ← means width meanRows
  let rows ← (sheet.dropRows "mu").select sheet.columns
  let matrix ← array width (← rows.mapM numbers)
  return { labels := sheet.columns, matrix, vector }

def portfolio (sheet : Sheet) : Except Error Data :=
  match sheet.rowsAt "mu" with
  | [] => .error (.rejected .meanRowMissing)
  | rows => liftM (sheet.align rows)

end Sheet

namespace Study

def entry (config : Fields) (name : String) (otherwise : Value) : Value :=
  (config.get? name).getD otherwise

/-- The labels of the weights and the job that a configuration asks for, with data that is read from a
text when its turn comes. -/
def job (config : Value) (data : Except Fault String) : Except Error (List String × SizedJob) := do
  match config with
  | .record config =>
    let problem := Text.lower (entry config "problem" (.text "regression")).display
    let request : Solve.Request :=
      ⟨entry config "penalty" (.text "L1"), entry config "lambda" (.float 0)⟩
    let settings ← Settings.default.withOptions (entry config "solver" (.record []))
    if problem = "regression" then
      let sheet ← Sheet.ofText false (← data)
      let data ← sheet.regression (entry config "response" (.text "y")).display
      let job ← Solve.job (Program.regression (.ok data.matrix) (.ok data.vector)) request
        (.ok settings) .null
      return (data.labels, job)
    else if problem = "portfolio" then
      let sheet ← Sheet.ofText true (← data)
      let data ← sheet.portfolio
      let phi ← (entry config "phi" (.float 1)).toFloat
      let program := Program.portfolio (.ok data.matrix) (.ok data.vector) (.ok phi)
        (.ok (some Solve.symmetryTolerance))
      let job ← Solve.job program request (.ok settings) .null
      return (data.labels, job)
    else .error (.rejected (.problemType problem))
  | _ => .error (.fault .noMember)

end Study

end SparseWeights
