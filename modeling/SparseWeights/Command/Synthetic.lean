import SparseWeights.Command.Options
import SparseWeights.Command.Sequence
import SparseWeights.Data.Address
import SparseWeights.Data.Json.Reader
import SparseWeights.Synthetic.Simulation

/-!
The command that writes synthetic data to a file.
-/

namespace SparseWeights.Command.Synthetic

open SparseWeights.Synthetic

def isProblem (name : String) : Bool :=
  name = ProblemKind.regression.name || name = ProblemKind.portfolio.name

def flags : List Options.Flag := [
  .text "--config", ⟨"--problem", some isProblem, false⟩, .text "--output"]

/-- The configuration in the file of a name, with lists and records at most so deep in each other; without
a name it is empty. -/
def configIn (levels : Nat) (files : Files) (name : Value) : Except Error Value := do
  match name with
  | .text "" => return .record []
  | .text name => Json.readWithin levels (← files.read (Path.ofName name))
  | _ => return .record []

def withProblem (config : Value) : Option Value → Except Fault Value
  | none => .ok config
  | some problem =>
    match config with
    | .record fields => .ok (.record (Fields.put "problem" problem fields))
    | _ => .error .wrongType

/-- Gives a file its text; the directory that it is in has to be there. Names that are addresses are no
names of files. -/
def writeIn (files : Files) (name : String) (text : String) : Except Fault Files :=
  if (Address.fetched? name).isSome then .error .unreachable
  else if Address.isAddress name then .error .notSupported
  else if !files.isFolder (Path.ofText name).parent then .error .noDirectory
  else if name = "" then .error .noFile
  else if name.endsWith "/" then .error .isDirectory
  else files.write (Path.ofName name) text

def defaultOutput : String := "simulated_data.csv"

def run (g : Generator) (levels : Nat) (arguments : List String) (files : Files) :
    Except Error Output := do
  match Options.read flags arguments with
  | .error code => .error (.fault (.exit code))
  | .ok given =>
    let config ← configIn levels files ((given.get? "--config").getD (.text ""))
    let plan ← Plan.ofConfig (← withProblem config (given.get? "--problem"))
    let data ← plan.simulate g .null
    match (given.get? "--output").getD (.text defaultOutput) with
    | .text name =>
      let files ← writeIn files name (data.sheet.write plan.isLabelled)
      return { lines := ["シミュレーションデータを " ++ name ++ " に保存しました。"], files }
    | _ => .error (.fault .unreadable)

end SparseWeights.Command.Synthetic
