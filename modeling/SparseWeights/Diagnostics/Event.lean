import SparseWeights.Diagnostics.Table
import SparseWeights.Penalty.Kind

/-!
What a run reports while it goes on, as data: who reports, how important it is, and the text.
-/

namespace SparseWeights

inductive Status where
  | optimal
  | iterationLimit
  deriving DecidableEq, Repr

def Status.text : Status → String
  | optimal => "Optimal"
  | iterationLimit => "Iteration limit reached"

inductive Event where
  | ignoredOption (key : String)
  | started (problem : String) (penalty : PenaltyKind) (dimension : Nat) (rho : Float) (maxIter : Nat)
  | table (line : TableLine Int Float)
  | timeLimit (limit : Float) (iteration : Nat)
  | finished (status : Status) (iterations : Nat) (objective : Float)
  | trackerMissing

namespace Event

inductive Level where
  | debug
  | info
  | warning
  deriving DecidableEq, Repr

def Level.name : Level → String
  | debug => "DEBUG"
  | info => "INFO"
  | warning => "WARNING"

def level : Event → Level
  | ignoredOption _ => .debug
  | started .. | table _ | finished .. => .info
  | timeLimit .. | trackerMissing => .warning

def channel : Event → String
  | ignoredOption _ => "sl1admm.config"
  | table _ => "sl1admm.diagnostics"
  | started .. | timeLimit .. | finished .. => "sl1admm.solver"
  | trackerMissing => "sl1admm.logger"

def text : Event → String
  | ignoredOption key => "Ignoring unrecognized solver option " ++ Value.quoted key
  | started problem penalty dimension rho maxIter =>
    "ADMM start: problem=" ++ problem ++ " penalty=" ++ penalty.name ++
      " K=" ++ Decimal.natText dimension ++ " rho=" ++ Decimal.scientific 3 rho ++
      " max_iter=" ++ Decimal.natText maxIter
  | table line => Table.lineText line
  | timeLimit limit iteration =>
    "ADMM stopped by time limit (" ++ Decimal.fixed 1 limit ++ "s) at iteration " ++
      Decimal.natText iteration
  | finished status iterations objective =>
    "ADMM finished: status=" ++ status.text ++ " iterations=" ++ Decimal.natText iterations ++
      " objective=" ++ Decimal.scientific 6 objective
  | trackerMissing => "wandb is not importable; skipping WandB logging"

end Event

end SparseWeights
