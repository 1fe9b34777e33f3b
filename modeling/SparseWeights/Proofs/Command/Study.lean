import SparseWeights.Proofs.Command.Document
import SparseWeights.Proofs.Data.Files
import SparseWeights.Proofs.Data.Json.Truncated
import SparseWeights.Proofs.Data.Printing
import SparseWeights.Proofs.Study

/-!
The file that a study leaves. A run that comes to a result, is asked for a file
and has a place for it, leaves its whole document there, unless there is a moment
of time in the configuration or the configuration is too deep to be written: that
is found when the file is open, and what was written of the document until then
stays and cannot be read. Every other run leaves all files as they were, though
it may have made the directories for its own.
-/

namespace SparseWeights

namespace Config

variable {stack : Stack} {files : Files} {path : Path} {v : Value}

theorem load_eq_ok (h : load stack files path = .ok v) :
    (path.suffix = ".toml" ∧ ∃ text, Toml.readWithin stack.toml text = .ok v) ∨
      (path.suffix = ".json" ∧ ∃ text, Json.readWithin stack.json text = .ok v) := by
  obtain ⟨found, -, h⟩ := bind_eq_ok_iff.mp h
  split at h
  · cases h
  · split at h
    next htoml =>
      obtain ⟨text, -, h⟩ := bind_eq_ok_iff.mp h
      exact .inl ⟨htoml, text, liftM_fault_eq_ok_iff.mp h⟩
    next =>
      split at h
      next hjson =>
        obtain ⟨text, -, h⟩ := bind_eq_ok_iff.mp h
        exact .inr ⟨hjson, text, liftM_fault_eq_ok_iff.mp h⟩
      next => cases h

theorem wellNamed_of_load (h : load stack files path = .ok v) : v.WellNamed := by
  obtain ⟨-, text, hread⟩ | ⟨-, text, hread⟩ := load_eq_ok h
  · exact Toml.named_of_readWithin hread
  · exact (Json.sound_of_readWithin hread).named

/-- Only TOML brings moments into a configuration. -/
theorem suffix_of_hasMoment (h : load stack files path = .ok v) (hmoment : v.hasMoment = true) :
    path.suffix = ".toml" := by
  obtain ⟨htoml, -⟩ | ⟨-, text, hread⟩ := load_eq_ok h
  · exact htoml
  · rw [(Json.sound_of_readWithin hread).free] at hmoment
    cases hmoment

end Config

namespace Command.Study

theorem files_startTracker (tracker : Option Tracker) (service : Service) (config : Value)
    (trail : Trail) : (startTracker tracker service config trail).1.files = trail.files := by
  cases tracker <;> rfl

theorem files_printParameters (stack : Stack) (arguments : Arguments) (config : Value)
    (trail : Trail) : (printParameters stack arguments config trail).1.files = trail.files := by
  rw [printParameters]
  split <;> rfl

theorem isWritable_of_printParameters {stack : Stack} {arguments : Arguments} {config : Value}
    {trail : Trail} (h : (printParameters stack arguments config trail).2 = .ok ()) :
    config.isWritable = true := by
  rw [printParameters] at h
  split at h
  next line hprint =>
    have hwritable := ((Value.print_eq_ok_iff _ _ line).mp hprint).1
    rw [parameters, Value.isWritable_record, List.all_eq_true] at hwritable
    exact hwritable ("config", config) (by simp)
  next => cases h

/-- What is known of a run before its job: no file has been written, and a configuration that was read
has been printed. -/
theorem begin_spec (stack : Stack) (words : List String) (environment : Fields)
    (service : Service) (files : Files) :
    (begin stack words environment service files).1.files = files ∧
      ∀ begun, (begin stack words environment service files).2 = .ok begun →
        configAt stack files begun.arguments.config = .ok begun.config ∧
          begun.config.isWritable = true := by
  rw [begin]
  dsimp only
  split
  · exact ⟨rfl, nofun⟩
  next arguments _ =>
    split
    · exact ⟨rfl, nofun⟩
    next config hconfig =>
      split
      · exact ⟨rfl, nofun⟩
      next tracker missing _ =>
        have hfiles := files_startTracker tracker service config
          (({ files } : Trail).note (if missing then [.trackerMissing] else []))
        split
        next trail _ hstart =>
          rw [hstart] at hfiles
          exact ⟨hfiles, nofun⟩
        next trail started hstart =>
          rw [hstart] at hfiles
          refine ⟨(files_printParameters stack arguments config trail).trans hfiles,
            fun begun h => ?_⟩
          obtain ⟨_, hprinted, rfl⟩ := map_eq_ok_iff.mp h
          exact ⟨hconfig, isWritable_of_printParameters hprinted⟩

theorem exists_load_of_configAt {stack : Stack} {files : Files} {path : Option Path}
    {config : Value} (h : configAt stack files path = .ok config) :
    ∃ place, path = some place ∧ Config.load stack files place = .ok config := by
  cases path with
  | none => cases h
  | some place => exact ⟨place, rfl, h⟩

section Writing

variable {stack : Stack} {document : Value} {trail : Trail}

theorem save_of_put {path : Path} {after : Files}
    (hput : trail.files.put path (Json.writeWithin stack.written document).text = .ok after) :
    (save stack (some (some path)) document trail).1.files = after ∧
      (save stack (some (some path)) document trail).2 =
        (Json.writeWithin stack.written document).stop?.map .fault := by
  simp only [save, hput]
  split
  next hwritten => exact ⟨rfl, by rw [hwritten, Option.map_none]⟩
  next cause hwritten => exact ⟨rfl, by rw [hwritten, Option.map_some]⟩

/-- Without a place for the file no file changes. -/
theorem entries_save {output : Option (Option Path)}
    (hplace : ∀ path, output = some (some path) → trail.files.keeps path = false) :
    (save stack output document trail).1.files.entries = trail.files.entries := by
  match output with
  | none => rfl
  | some none => rfl
  | some (some path) =>
      cases hput : trail.files.put path (Json.writeWithin stack.written document).text with
      | error cause =>
          rw [save, hput]
          exact trail.files.entries_makeFolders path.parent
      | ok after =>
          rw [(save_of_put hput).1]
          exact Files.entries_put hput (hplace path rfl)

end Writing

/-- A report with a result is concluded by writing, and nothing else touches a file. -/
theorem conclude_of_result (stack : Stack) (begun : Begun) (labels : List String) {report : Report}
    (trail : Trail) {n : ℕ} {r : Result Float n} (h : report.result = .ok ⟨n, r⟩) :
    ∃ printed : Trail, printed.files = trail.files ∧
      (conclude stack begun labels report trail).1.files =
        (save stack begun.arguments.output (document begun labels r) printed).1.files ∧
      (conclude stack begun labels report trail).2 =
        (save stack begun.arguments.output (document begun labels r) printed).2 := by
  refine ⟨((trail.note report.events).send (recordCalls begun.tracker report.seen)).print
    (resultLines labels r ++ plotLines begun.arguments.plot), rfl, ?_⟩
  rw [conclude, h]
  dsimp only
  split
  next hsave => rw [hsave]; exact ⟨rfl, rfl⟩
  next hsave => rw [hsave]; exact ⟨rfl, rfl⟩

theorem conclude_of_error {stack : Stack} {begun : Begun} {labels : List String} {report : Report}
    {trail : Trail} {e : Error} (h : report.result = .error e) :
    (conclude stack begun labels report trail).1.files = trail.files := by
  rw [conclude, h]
  rfl

/-- A file holds a document: its text is read as the document, if the reader goes deep enough. -/
def Holds (files : Files) (path : Path) (document : Value) : Prop :=
  ∃ text, files.read path = .ok text ∧
    ∀ levels, document.depth ≤ levels → Json.readWithin levels text = .ok document

/-- A file is there, but no reader makes a document of it. -/
def HoldsNothing (files : Files) (path : Path) : Prop :=
  ∃ text, files.read path = .ok text ∧ ∀ levels, ∃ e, Json.readWithin levels text = .error e

/-- A run comes to a result, is asked for a file, and has a place for it. -/
structure Delivers (stack : Stack) (words : List String) (environment : Fields) (service : Service)
    (files : Files) (clock : Clock) {n : ℕ} (begun : Begun) (labels : List String)
    (r : Result Float n) (path : Path) : Prop where
  begins : (begin stack words environment service files).2 = .ok begun
  solves : ∃ job, SparseWeights.Study.job begun.config (dataAt files begun.arguments.data) =
    .ok (labels, job) ∧ (job.run clock).result = .ok ⟨n, r⟩
  asked : begun.arguments.output = some (some path)
  place : files.keeps path = true

section Runs

variable {stack : Stack} {words : List String} {environment : Fields} {service : Service}
  {files : Files} {clock : Clock}

theorem run_of_begin_error {e : Error}
    (hbegin : (begin stack words environment service files).2 = .error e) :
    (run stack words environment service files clock).1 = (begin stack words environment service files).1 := by
  rw [run]
  split
  next hfailed => rw [hfailed]
  next hbegun =>
    rw [hbegun] at hbegin
    cases hbegin

theorem run_of_job_error {begun : Begun}
    (hbegin : (begin stack words environment service files).2 = .ok begun) {e : Error}
    (hjob : SparseWeights.Study.job begun.config (dataAt files begun.arguments.data) = .error e) :
    (run stack words environment service files clock).1 = (begin stack words environment service files).1 := by
  rw [run]
  split
  next hfailed => rw [hfailed]
  next hbegun =>
    rw [hbegun] at hbegin ⊢
    cases hbegin
    rw [hjob]

theorem run_of_begin {begun : Begun}
    (hbegin : (begin stack words environment service files).2 = .ok begun) {labels : List String}
    {job : SizedJob}
    (hjob : SparseWeights.Study.job begun.config (dataAt files begun.arguments.data) =
      .ok (labels, job)) :
    run stack words environment service files clock =
      conclude stack begun labels (job.run clock) (begin stack words environment service files).1 := by
  rw [run]
  split
  next hfailed =>
    rw [hfailed] at hbegin
    cases hbegin
  next hbegun =>
    rw [hbegun] at hbegin ⊢
    cases hbegin
    rw [hjob]

namespace Delivers

variable {n : ℕ} {begun : Begun} {labels : List String} {r : Result Float n} {path : Path}
  (h : Delivers stack words environment service files clock begun labels r path)

include h

/-- There is a label for every weight. -/
theorem length_labels : labels.length = n := by
  obtain ⟨job, hjob, hresult⟩ := h.solves
  obtain ⟨sized, rfl, -⟩ := SizedJob.result_of_run hresult
  exact Study.length_labels hjob

/-- The document differs from what can be written by the moments of the configuration at most. -/
theorem document_spec :
    (document begun labels r).hasMoment = begun.config.hasMoment ∧
      (document begun labels r).isWritable = true ∧ (document begun labels r).WellNamed := by
  obtain ⟨job, -, hresult⟩ := h.solves
  obtain ⟨sized, -, hresult⟩ := SizedJob.result_of_run hresult
  obtain ⟨hiterations, hcounts⟩ := Job.counts_of_result hresult
  obtain ⟨hconfig, hwritable⟩ := (begin_spec stack words environment service files).2 begun h.begins
  obtain ⟨place, -, hload⟩ := exists_load_of_configAt hconfig
  have hown : ∀ field ∈ ownFields begun labels r, Plain field.2 :=
    plain_ownFields hiterations hcounts
  exact ⟨hasMoment_document hown, isWritable_document hown hwritable,
    wellNamed_document hown (Config.wellNamed_of_load hload)⟩

/-- What was written of the document is in the file, and the run fails if writing has stopped. -/
theorem run_spec :
    (run stack words environment service files clock).1.files.read path =
        .ok (Json.writeWithin stack.written (document begun labels r)).text ∧
      (run stack words environment service files clock).2 =
        (Json.writeWithin stack.written (document begun labels r)).stop?.map .fault := by
  obtain ⟨job, hjob, hresult⟩ := h.solves
  obtain ⟨printed, hprinted, hfiles, herror⟩ :=
    conclude_of_result stack begun labels (begin stack words environment service files).1 hresult
  have hkeeps : printed.files.keeps path = true := by
    rw [hprinted, (begin_spec stack words environment service files).1]
    exact h.place
  obtain ⟨after, hput, hread⟩ := Files.exists_put hkeeps
    (Json.writeWithin stack.written (document begun labels r)).text
  obtain ⟨hsaved, hended⟩ := save_of_put hput
  rw [run_of_begin h.begins hjob, hfiles, herror, h.asked, hsaved]
  exact ⟨hread, hended⟩

/-- Without a moment, and not too deep, the whole document is written. -/
theorem holds (hfree : begun.config.hasMoment = false)
    (hdepth : (document begun labels r).depth ≤ stack.written) :
    (run stack words environment service files clock).2 = none ∧
      Holds (run stack words environment service files clock).1.files path
        (document begun labels r) := by
  obtain ⟨hsame, hwritable, hnamed⟩ := h.document_spec
  obtain ⟨hread, hended⟩ := h.run_spec
  have hwritten := Json.readWithin_writeWithin (hsame.trans hfree) hdepth hwritable hnamed
  rw [(hwritten 0).1] at hended
  exact ⟨hended, _, hread, fun levels hdeep => (hwritten levels).2.trans (if_pos hdeep)⟩

/-- In front of a moment, or of what is too deep, writing stops, and what is in the file then is no
document. -/
theorem holdsNothing
    (hstops : begun.config.hasMoment = true ∨ stack.written < (document begun labels r).depth) :
    (∃ cause, (run stack words environment service files clock).2 = some (.fault cause) ∧
        (cause = .wrongType ∧ begun.config.hasMoment = true ∨
          cause = .tooDeep ∧ stack.written < (document begun labels r).depth)) ∧
      HoldsNothing (run stack words environment service files clock).1.files path := by
  obtain ⟨hsame, hwritable, hnamed⟩ := h.document_spec
  obtain ⟨hread, hended⟩ := h.run_spec
  rw [← hsame] at hstops ⊢
  obtain ⟨⟨cause, hcause, hmay⟩, hnothing⟩ := Json.readWithin_truncated hstops hwritable hnamed
  rw [hcause, Option.map_some] at hended
  refine ⟨⟨cause, hended, ?_⟩, _, hread, hnothing⟩
  cases cause with
  | wrongType => exact .inl ⟨rfl, hmay⟩
  | tooDeep => exact .inr ⟨rfl, by rwa [Json.MayStop, zero_add] at hmay⟩
  | _ => exact hmay.elim

/-- A configuration with a moment was read from TOML. -/
theorem suffix_of_hasMoment (hmoment : begun.config.hasMoment = true) :
    begun.arguments.config.any (·.suffix = ".toml") = true := by
  obtain ⟨hconfig, -⟩ := (begin_spec stack words environment service files).2 begun h.begins
  obtain ⟨place, hplace, hload⟩ := exists_load_of_configAt hconfig
  rw [hplace]
  simpa using Config.suffix_of_hasMoment hload hmoment

end Delivers

/-- A run that delivers nothing leaves the files as they were. -/
theorem entries_of_not_delivers
    (hnone : ∀ (n : ℕ) (begun : Begun) (labels : List String) (r : Result Float n) (path : Path),
      ¬ Delivers stack words environment service files clock begun labels r path) :
    (run stack words environment service files clock).1.files.entries = files.entries := by
  have hfiles := (begin_spec stack words environment service files).1
  cases hbegin : (begin stack words environment service files).2 with
  | error e => rw [run_of_begin_error hbegin, hfiles]
  | ok begun =>
      cases hjob : SparseWeights.Study.job begun.config (dataAt files begun.arguments.data) with
      | error e => rw [run_of_job_error hbegin hjob, hfiles]
      | ok found =>
          obtain ⟨labels, job⟩ := found
          rw [run_of_begin hbegin hjob]
          cases hresult : (job.run clock).result with
          | error e => rw [conclude_of_error hresult, hfiles]
          | ok found =>
              obtain ⟨n, r⟩ := found
              obtain ⟨printed, hprinted, hconcluded, -⟩ := conclude_of_result stack begun labels
                (begin stack words environment service files).1 hresult
              rw [hconcluded, entries_save, hprinted, hfiles]
              intro path hpath
              rw [hprinted, hfiles]
              by_contra hplace
              exact hnone n begun labels r path
                ⟨hbegin, ⟨job, hjob, hresult⟩, hpath, Bool.not_eq_false _ ▸ hplace⟩

end Runs

/-- The strings of the configuration are texts: none has half of a pair of code units, which a text of
characters cannot hold and a run does not get behind here. -/
def HasTexts (stack : Stack) (words : List String) (environment : Fields) (service : Service)
    (files : Files) : Prop :=
  (begin stack words environment service files).2 ≠ .error (.fault .halfPair)

/-- What a run leaves. If it comes to a result, is asked for a file and has a place for it, then it has a
label for every weight, and the document is one level deeper than the configuration, or three levels deep
if the history is deeper. Unless there is a moment of time in the configuration or the document is deeper
than the writer goes, the run ends well and the file holds the whole document. A moment, which only a TOML
file can bring, or too much depth ends the run with a fault and leaves a file that cannot be read. All
other runs on configurations of texts change no file. -/
theorem run_leaves (stack : Stack) (words : List String) (environment : Fields) (service : Service)
    (files : Files) (clock : Clock) :
    (∀ (n : ℕ) (begun : Begun) (labels : List String) (r : Result Float n) (path : Path),
      Delivers stack words environment service files clock begun labels r path →
        labels.length = n ∧
        (document begun labels r).depth = max 2 begun.config.depth + 1 ∧
        (begun.config.hasMoment = false → (document begun labels r).depth ≤ stack.written →
          (run stack words environment service files clock).2 = none ∧
            Holds (run stack words environment service files clock).1.files path
              (document begun labels r)) ∧
        (begun.config.hasMoment = true →
          begun.arguments.config.any (·.suffix = ".toml") = true) ∧
        (begun.config.hasMoment = true ∨ stack.written < (document begun labels r).depth →
          (∃ cause, (run stack words environment service files clock).2 = some (.fault cause) ∧
            (cause = .wrongType ∧ begun.config.hasMoment = true ∨
              cause = .tooDeep ∧ stack.written < (document begun labels r).depth)) ∧
            HoldsNothing (run stack words environment service files clock).1.files path)) ∧
    (HasTexts stack words environment service files →
      (∀ (n : ℕ) (begun : Begun) (labels : List String) (r : Result Float n) (path : Path),
        ¬ Delivers stack words environment service files clock begun labels r path) →
      (run stack words environment service files clock).1.files.entries = files.entries) :=
  ⟨fun _ _ _ _ _ h => ⟨h.length_labels, depth_document, h.holds, h.suffix_of_hasMoment,
    h.holdsNothing⟩, fun _ hnone => entries_of_not_delivers hnone⟩

/-- What a run with a result was asked for, whether there is a moment in its configuration, and how deep
the configuration is. -/
def outcome? (stack : Stack) (words : List String) (files : Files) (clock : Clock) :
    Option (Option (Option Path) × Bool × ℕ) :=
  (begin stack words [] .absent files).2.toOption.bind fun begun =>
    (SparseWeights.Study.job begun.config
        (dataAt files begun.arguments.data)).toOption.bind fun found =>
      (found.2.run clock).result.toOption.map fun _ =>
        (begun.arguments.output, begun.config.hasMoment, begun.config.depth)

theorem toOption_eq_some_iff {ε α : Type} {x : Except ε α} {a : α} :
    x.toOption = some a ↔ x = .ok a := by
  cases x with
  | error e => simp [Except.toOption]
  | ok b => simp [Except.toOption]

theorem exists_delivers {stack : Stack} {words : List String} {files : Files} {clock : Clock}
    {path : Path} {moment : Bool} {depth : ℕ}
    (houtcome : outcome? stack words files clock = some (some (some path), moment, depth))
    (hplace : files.keeps path = true) :
    ∃ (n : ℕ) (begun : Begun) (labels : List String) (r : Result Float n),
      Delivers stack words [] .absent files clock begun labels r path ∧
        begun.config.hasMoment = moment ∧
        (document begun labels r).depth = max 2 depth + 1 := by
  obtain ⟨begun, hbegin, houtcome⟩ := Option.bind_eq_some_iff.mp houtcome
  obtain ⟨⟨labels, job⟩, hjob, houtcome⟩ := Option.bind_eq_some_iff.mp houtcome
  obtain ⟨⟨n, r⟩, hresult, hfound⟩ := Option.map_eq_some_iff.mp houtcome
  obtain ⟨hasked, hconfig⟩ := Prod.mk.inj hfound
  obtain ⟨hmoment, rfl⟩ := Prod.mk.inj hconfig
  rw [toOption_eq_some_iff] at hbegin hjob hresult
  exact ⟨n, begun, labels, r, ⟨hbegin, ⟨job, hjob, hresult⟩, hasked, hplace⟩, hmoment,
    depth_document⟩

/-- A stack on which values of a hundred levels are read, printed and written. -/
def hundredLevels : Stack := ⟨100, 100, 100, 100⟩

def plainWords : List String := ["--config", "c.json", "--data", "d", "--output", "r"]

def plainFiles : Files := { entries := [(["c.json"], "\x7b\x7d"), (["d"], "x,y\n1,1\n")] }

/-- With an empty configuration the whole document is written. -/
theorem run_leaves_plain :
    ∃ (n : ℕ) (begun : Begun) (labels : List String) (r : Result Float n),
      Delivers hundredLevels plainWords [] .absent plainFiles 0 begun labels r (Path.ofText "r") ∧
        labels.length = n ∧ (run hundredLevels plainWords [] .absent plainFiles 0).2 = none ∧
        Holds (run hundredLevels plainWords [] .absent plainFiles 0).1.files (Path.ofText "r")
          (document begun labels r) := by
  obtain ⟨n, begun, labels, r, hdelivers, hfree, hdepth⟩ :=
    exists_delivers (show outcome? hundredLevels plainWords plainFiles 0 =
      some (some (some (Path.ofText "r")), false, 1) by decide +kernel) (by decide +kernel)
  obtain ⟨hlabels, -, hholds, -⟩ :=
    (run_leaves hundredLevels plainWords [] .absent plainFiles 0).1 n begun labels r _ hdelivers
  exact ⟨n, begun, labels, r, hdelivers, hlabels, hholds hfree (hdepth.trans_le (by decide))⟩

def datedWords : List String := ["--data", "d", "--output", "r"]

def datedFiles : Files where
  entries := [(["config.toml"], "day = 2024-01-15\n"), (["d"], "x,y\n1,1\n")]

/-- With a date in the configuration the run comes to a result, and the file that it leaves is no
document. -/
theorem run_dated :
    ∃ (n : ℕ) (begun : Begun) (labels : List String) (r : Result Float n),
      Delivers hundredLevels datedWords [] .absent datedFiles 0 begun labels r (Path.ofText "r") ∧
        (run hundredLevels datedWords [] .absent datedFiles 0).2 = some (.fault .wrongType) ∧
        HoldsNothing (run hundredLevels datedWords [] .absent datedFiles 0).1.files
          (Path.ofText "r") := by
  obtain ⟨n, begun, labels, r, hdelivers, hmoment, hdepth⟩ :=
    exists_delivers (show outcome? hundredLevels datedWords datedFiles 0 =
      some (some (some (Path.ofText "r")), true, 1) by decide +kernel) (by decide +kernel)
  obtain ⟨⟨cause, hended, ⟨rfl, -⟩ | ⟨-, hdeep⟩⟩, hnothing⟩ :=
    hdelivers.holdsNothing (.inl hmoment)
  · exact ⟨n, begun, labels, r, hdelivers, hended, hnothing⟩
  · rw [hdepth] at hdeep
    exact absurd hdeep (by decide)

end Command.Study

end SparseWeights
