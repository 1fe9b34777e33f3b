import SparseWeights.Command.Options
import SparseWeights.Data.Files
import SparseWeights.Data.Json.Writer
import SparseWeights.Sequence.Reading

/-!
The command that writes a sequence of factors to a file.
-/

namespace SparseWeights.Command

/-- What a command leaves behind: the lines it printed and the files. -/
structure Output where
  lines : List String
  files : Files

namespace Sequence

def isInt (s : String) : Bool := (Decimal.readInt? s).isSome

def isFloat (s : String) : Bool := (Decimal.readFloat? s).isSome

def flags : List Options.Flag := [
  ⟨"--n-weights", some isInt, true⟩,
  ⟨"--kind", some fun kind => kind = "linear" || kind = "bh", false⟩,
  ⟨"--lam-max", some isFloat, false⟩,
  ⟨"--lam-min", some isFloat, false⟩,
  ⟨"--q", some isFloat, false⟩,
  .text "--output"]

def readOr (given : Options.Given) (name : String) (read : String → Value) (otherwise : Value) :
    Value :=
  match given.get? name with
  | some (.text s) => read s
  | some value => value
  | none => otherwise

def number (given : Options.Given) (name : String) (otherwise : Float) : Value :=
  readOr given name (fun s => .float ((Decimal.readFloat? s).getD otherwise)) (.float otherwise)

def requestOf (given : Options.Given) : SparseWeights.Sequence.Request where
  count := readOr given "--n-weights" (fun s => .int ((Decimal.readInt? s).getD 0)) (.int 0)
  kind := (given.get? "--kind").getD (.text "linear")
  first := number given "--lam-max" 1.0
  last := number given "--lam-min" 0.0
  level := number given "--q" 0.1

/-- The contents of the file, which are two levels deep. -/
def document (r : SparseWeights.Sequence.Request) (factors : List Float) : Value :=
  .record [
    ("description", .text ("SortedL1 lambda sequence (" ++ r.kind.display ++ ", K=" ++
      r.count.display ++ ")")),
    ("lambda", .list (factors.map .float))]

def smallest (first : Float) (rest : List Float) : Float :=
  rest.foldl (fun least x => if x < least then x else least) first

def largest (first : Float) (rest : List Float) : Float := rest.foldl Scalar.larger first

def rangeText : List Float → String
  | [] => ""
  | first :: rest =>
    "  Range: " ++ Decimal.fixed 6 (smallest first rest) ++ " to " ++
      Decimal.fixed 6 (largest first rest)

def defaultOutput : String := "lambda_sequence.json"

def run (memory : Memory) (arguments : List String) (files : Files) : Except Error Output := do
  match Options.read flags arguments with
  | .error code => .error (.fault (.exit code))
  | .ok given =>
    let request := requestOf given
    let factors ← SparseWeights.Sequence.ofRequest memory request
    match Path.ofValue? ((given.get? "--output").getD (.text defaultOutput)) with
    | none => .error (.fault .noMember)
    | some path =>
      let files ← files.write path (Json.writeWithin 2 (document request factors)).text
      return {
        lines := ["Generated " ++ Decimal.natText factors.length ++ " lambda values:",
          rangeText factors, "Saved to: " ++ path.text]
        files }

end Sequence

end SparseWeights.Command
