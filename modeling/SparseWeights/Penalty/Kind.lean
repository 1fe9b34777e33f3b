import SparseWeights.Error
import SparseWeights.Text.Blank
import SparseWeights.Text.Lower

/-!
The two kinds of penalty and the spellings of their names. Case and blanks at the ends do not count, and
a hyphen counts as an underscore.
-/

namespace SparseWeights

inductive PenaltyKind where
  | l1
  | sortedL1
  deriving DecidableEq, Repr

namespace PenaltyKind

def name : PenaltyKind → String
  | l1 => "l1"
  | sortedL1 => "sorted_l1"

/-- The spellings that stay different when case, blanks and hyphens do not count. -/
def spellings : List (String × PenaltyKind) := [
  ("l1", l1), ("sortedl1", sortedL1), ("sorted_l1", sortedL1), ("sl1", sortedL1)]

def normalized (s : String) : String :=
  String.ofList ((Text.lower (String.ofList (Text.strip s.toList))).toList.map fun c =>
    if c = '-' then '_' else c)

def ofText? (s : String) : Option PenaltyKind :=
  (spellings.find? fun spelling => spelling.1 == normalized s).map (·.2)

def ofValue : Value → Except Error PenaltyKind
  | .text s => (ofText? s).elim (.error (.invalid (.kindUnknown s))) .ok
  | kind => .error (.invalid (.kindNotText kind))

end PenaltyKind

end SparseWeights
