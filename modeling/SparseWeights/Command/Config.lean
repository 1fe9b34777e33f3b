import SparseWeights.Data.Files
import SparseWeights.Data.Json.Reader
import SparseWeights.Data.Toml.Reader
import SparseWeights.Error

/-!
Configuration files. The suffix of the name tells the format.
-/

namespace SparseWeights

/-- How deep values may be before the stack of a process runs out, for each routine that follows lists and
records by calling itself. -/
structure Stack where
  json : Nat
  toml : Nat
  printed : Nat
  written : Nat

namespace Config

def load (stack : Stack) (files : Files) (path : Path) : Except Error Value := do
  if !(← files.has path) then .error (.configMissing path.text)
  else if path.suffix = ".toml" then Toml.readWithin stack.toml (← files.read path)
  else if path.suffix = ".json" then Json.readWithin stack.json (← files.read path)
  else .error (.rejected (.configFormat path.suffix))

end Config

end SparseWeights
