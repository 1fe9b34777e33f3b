import SparseWeights.Command.Config
import SparseWeights.Command.Options
import SparseWeights.Data.Address
import SparseWeights.Data.Json.Writer
import SparseWeights.Data.Packing
import SparseWeights.Study
import SparseWeights.Tracking

/-!
The command that solves a study: it reads a configuration and a data file, solves the problem, prints a
summary, and writes the result to a file if it is asked to. A run goes through three stages. `begin` reads
the command line and the configuration, the job is run in between, and `conclude` prints and writes.
What was printed, written and sent in a stage stays when a later one fails.
-/

namespace SparseWeights.Command.Study

/-- The command line, read. An option that was given an empty list in place of a path has none. -/
structure Arguments where
  config : Option Path
  data : Option Path
  output : Option (Option Path)
  plot : Bool

def flags : List Options.Flag :=
  [.text "--config", .text "--data", .text "--output", .switch "--plot"]

def defaultConfig : String := "config.toml"

def defaultData : String := "data/simulated_data.csv"

def Arguments.read (words : List String) : Except Nat Arguments := do
  let given ← Options.read flags words
  let path (name default : String) := Path.ofValue? ((given.get? name).getD (.text default))
  return {
    config := path "--config" defaultConfig
    data := path "--data" defaultData
    output := (given.get? "--output").map Path.ofValue?
    plot := given.has "--plot" }

/-- What can be seen of a run: the lines it printed, the files, the calls that the tracking service
received, and what was reported. -/
structure Trail where
  lines : List String := []
  files : Files
  calls : List ServiceCall := []
  events : List Event := []

namespace Trail

def print (t : Trail) (lines : List String) : Trail := { t with lines := t.lines ++ lines }

def send (t : Trail) (calls : List ServiceCall) : Trail := { t with calls := t.calls ++ calls }

def note (t : Trail) (events : List Event) : Trail := { t with events := t.events ++ events }

end Trail

structure Begun where
  arguments : Arguments
  config : Value
  tracker : Option Tracker

def heading (title : String) : List String := ["", "=== " ++ title ++ " ==="]

def pathText (p : Option Path) : String := p.elim (Value.list []).literal Path.text

def parameters (arguments : Arguments) (config : Value) : Value :=
  .record [
    ("config_path", .text (pathText arguments.config)),
    ("data_path", .text (pathText arguments.data)),
    ("output_path", (arguments.output.map fun p => Value.text (pathText p)).getD .null),
    ("plot", .bool arguments.plot),
    ("config", config)]

/-- Prints the parameters of a run, if they have a notation. -/
def printParameters (stack : Stack) (arguments : Arguments) (config : Value) (trail : Trail) :
    Trail × Except Error Unit :=
  let trail := trail.print (heading "Run parameters")
  match (parameters arguments config).print stack.printed with
  | .ok line => (trail.print [line], .ok ())
  | .error cause => (trail, .error (.fault cause))

def configAt (stack : Stack) (files : Files) (path : Option Path) : Except Error Value :=
  path.elim (.error (.fault .wrongType)) (Config.load stack files)

def dataAt (files : Files) (path : Option Path) : Except Fault String :=
  path.elim (.error .unreadable) fun path => Packing.read path.text (Address.read files path)

def startTracker (tracker : Option Tracker) (service : Service) (config : Value) (trail : Trail) :
    Trail × Except Error (Option Tracker) :=
  match tracker with
  | none => (trail, .ok none)
  | some t =>
    let r := t.start service (.record [("config", config)])
    (trail.send r.calls, match r.error with
      | some e => .error e
      | none => .ok (some r.tracker))

/-- Reads the command line and the configuration, and starts the tracker. -/
def begin (stack : Stack) (words : List String) (environment : Fields) (service : Service)
    (files : Files) : Trail × Except Error Begun :=
  let trail : Trail := { files }
  match Arguments.read words with
  | .error code => (trail, .error (.fault (.exit code)))
  | .ok arguments =>
    match configAt stack files arguments.config with
    | .error e => (trail, .error e)
    | .ok config =>
      match Tracker.ofEnvironment environment service (.text Tracker.defaultName) with
      | .error cause => (trail, .error (.fault cause))
      | .ok (tracker, missing) =>
        let trail := trail.note (if missing then [.trackerMissing] else [])
        match startTracker tracker service config trail with
        | (trail, .error e) => (trail, .error e)
        | (trail, .ok tracker) =>
          let (trail, printed) := printParameters stack arguments config trail
          (trail, printed.map fun _ => { arguments, config, tracker })

/-- What the tracking service receives while a job runs. -/
def recordCalls (tracker : Option Tracker) (records : History Nat Float) : List ServiceCall :=
  match tracker with
  | none => []
  | some t => records.flatMap fun r => (t.record r.generic).calls

def summary {n : Nat} (r : Result Float n) : Fields := [
  ("status", .text r.status.text), ("n_iter", .int r.iterations), ("objective", .float r.objective),
  ("penalty", .float r.penalty), ("sum_w", .float (Vec.total r.w)), ("rho", .float r.rho)]

def floats {n : Nat} (v : Vec Float n) : Value := .list (v.toList.map .float)

def historyValue (h : History Nat Float) : Value :=
  .record (History.columns (h.map Record.generic))

def document {n : Nat} (begun : Begun) (labels : List String) (r : Result Float n) : Value :=
  .record [
    ("data_path", .text (pathText begun.arguments.data)),
    ("labels", .list (labels.map .text)),
    ("w", floats r.w), ("alpha", floats r.alpha), ("beta", .float r.beta),
    ("summary", .record (summary r)),
    ("history", historyValue r.history),
    ("config", begun.config)]

def resultLines {n : Nat} (labels : List String) (r : Result Float n) : List String :=
  heading "Estimated weights" ++
    List.zipWith (fun label x => label ++ "    " ++ Decimal.shortest x) labels r.w.toList ++
  heading "Summary" ++ [(Value.record (summary r)).literal] ++
  match r.history.getLast? with
  | some last => heading "ADMM history (last)" ++ [(Value.record last.generic.toFields).literal]
  | none => []

def plotLines (plot : Bool) : List String :=
  if plot then ["matplotlib が利用できないため重みのプロットをスキップします。"] else []

/-- Writes a document to the file that was asked for. A document that cannot be written to its end
leaves the file as far as it got, and a file that cannot be opened the directories that were made for it. -/
def save (stack : Stack) (output : Option (Option Path)) (document : Value) (trail : Trail) :
    Trail × Option Error :=
  match output with
  | none => (trail, none)
  | some none => (trail, some (.fault .noMember))
  | some (some path) =>
    let written := Json.writeWithin stack.written document
    match trail.files.put path written.text with
    | .error cause =>
      ({ trail with files := (trail.files.makeFolders path.parent).1 }, some (.fault cause))
    | .ok files =>
      let trail := { trail with files }
      match written.stop? with
      | none => (trail.print ["Saved result JSON to " ++ path.text], none)
      | some cause => (trail, some (.fault cause))

def closingCalls {n : Nat} (tracker : Option Tracker) (r : Result Float n) : List ServiceCall :=
  match tracker with
  | none => []
  | some t => (t.summary (.record (summary r))).calls ++ t.finish.calls

/-- Prints and writes the report of a job. -/
def conclude (stack : Stack) (begun : Begun) (labels : List String) (report : Report)
    (trail : Trail) : Trail × Option Error :=
  let trail := (trail.note report.events).send (recordCalls begun.tracker report.seen)
  match report.result with
  | .error e => (trail, some e)
  | .ok ⟨_, r⟩ =>
    let trail := trail.print (resultLines labels r ++ plotLines begun.arguments.plot)
    match save stack begun.arguments.output (document begun labels r) trail with
    | (trail, some e) => (trail, some e)
    | (trail, none) => (trail.send (closingCalls begun.tracker r), none)

def run (stack : Stack) (words : List String) (environment : Fields) (service : Service)
    (files : Files) (clock : Clock) : Trail × Option Error :=
  match begin stack words environment service files with
  | (trail, .error e) => (trail, some e)
  | (trail, .ok begun) =>
    match SparseWeights.Study.job begun.config (dataAt files begun.arguments.data) with
    | .error e => (trail, some e)
    | .ok (labels, job) => conclude stack begun labels (job.run clock) trail

end SparseWeights.Command.Study
