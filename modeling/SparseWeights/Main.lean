import SparseWeights.Admm.Watch
import SparseWeights.Command.Sequence
import SparseWeights.Command.Study
import SparseWeights.Command.Synthetic
import SparseWeights.Synthetic.Noise

/-!
The program. Its first word names a command: `sequence` writes a sequence of factors, `synthetic` writes
synthetic data, and anything else is the command line of a study. Here files are read and written, lines
are printed, and the clock is read; what is printed and written is decided by the commands.
-/

namespace SparseWeights.CommandLine

open Command

def usage : String := "usage: [sequence | synthetic] [options]"

def report (e : Error) : IO UInt32 :=
  match e with
  | .fault (.exit 0) => do
    IO.println usage
    return 0
  | .fault (.exit code) => do
    IO.eprintln usage
    return code.toUInt32
  | e => do
    IO.eprintln ((e.message?).getD (reprStr e))
    return 1

def fetch (files : Files) (path : Path) : IO Files := do
  try
    let text ← IO.FS.readFile path.text
    return ((files.put path text).toOption).getD files
  catch _ => return files

def store (files : Files) (path : Path) : IO Unit := do
  match files.read path with
  | .ok text =>
    IO.FS.createDirAll path.parent.text
    IO.FS.writeFile path.text text
  | .error _ => return ()

/-- The directory that an output goes to is taken to be there. -/
def expectFolder (files : Files) (path : Path) : Files :=
  ((files.makeFolder path.parent).toOption).getD files

/-- A command that writes a file, run on the files that it names. -/
def writing (run : Files → Except Error Output) (output : Path) (files : Files) : IO UInt32 := do
  match run (expectFolder files output) with
  | .error e => report e
  | .ok out =>
    store out.files output
    out.lines.forM IO.println
    return 0

def pathOf? (flags : List Options.Flag) (words : List String) (name : String) : Option Path :=
  (((Options.read flags words).toOption).bind fun given => given.get? name).bind Path.ofValue?

/-- Arrays of a gigabyte of doubles are left to the machine, larger ones are not tried. -/
def memory : Memory := ⟨Decimal.pow2 60, Decimal.pow2 27, by decide⟩

/-- Room for lists and records of a thousand levels. -/
def stack : Stack := ⟨1000, 1000, 1000, 1000⟩

def sequence (words : List String) : IO UInt32 := do
  let output := (pathOf? Sequence.flags words "--output").getD (.ofText Sequence.defaultOutput)
  writing (Sequence.run memory words) output {}

def synthetic (words : List String) : IO UInt32 := do
  let flags := Command.Synthetic.flags
  let output := (pathOf? flags words "--output").getD (.ofText Command.Synthetic.defaultOutput)
  let files ← match pathOf? flags words "--config" with
    | some config => fetch {} config
    | none => pure {}
  writing (Command.Synthetic.run (Synthetic.Noise.generator memory) stack.json words) output files

def nanoseconds : Float := 1e9

/-- All iterations of a job, against the clock of the machine. -/
def traced {n : Nat} (job : Job Float n) : IO (Trace Float n) := do
  let started ← IO.monoNanosNow
  let seconds (_ : Nat) : StateT (History Nat Float) IO Float := do
    return Float.ofNat ((← IO.monoNanosNow) - started) / nanoseconds
  let (outcome, records) ← (job.watchBy (.storingIn IO Float) seconds).run []
  return .ofKept records outcome

def environment : IO Fields := do
  ["WANDB_PROJECT", "WANDB_ENABLED"].filterMapM fun name => do
    return (← IO.getEnv name).map fun value => (name, Value.text value)

def follow (before after : Study.Trail) : IO Unit := do
  (after.lines.drop before.lines.length).forM IO.println
  ((after.events.drop before.events.length).filter fun event => event.level != .debug).forM fun event =>
    IO.eprintln (event.channel ++ ": " ++ event.text)

def study (words : List String) : IO UInt32 := do
  let files ← match Study.Arguments.read words with
    | .ok arguments => (arguments.config.toList ++ arguments.data.toList).foldlM fetch {}
    | .error _ => pure {}
  let (trail, begun) := Study.begin stack words (← environment) .absent files
  follow { files } trail
  match begun with
  | .error e => report e
  | .ok begun =>
    match SparseWeights.Study.job begun.config (Study.dataAt files begun.arguments.data) with
    | .error e => report e
    | .ok (labels, ⟨_, job⟩) =>
      let trace ← traced job
      let (after, failure) := Study.conclude stack begun labels (job.report trace) trail
      follow trail after
      (begun.arguments.output.bind id).forM (store after.files)
      match failure with
      | some e => report e
      | none => return 0

end SparseWeights.CommandLine

def main (words : List String) : IO UInt32 :=
  match words with
  | "sequence" :: rest => SparseWeights.CommandLine.sequence rest
  | "synthetic" :: rest => SparseWeights.CommandLine.synthetic rest
  | words => SparseWeights.CommandLine.study words
