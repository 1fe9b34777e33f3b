import SparseWeights.Command.Study
import SparseWeights.Proofs.Admm.Watch
import SparseWeights.Proofs.Data.Json.Sound
import SparseWeights.Proofs.Data.Parts
import SparseWeights.Proofs.Data.Toml.Named
import SparseWeights.Proofs.Decimal.Binary64
import SparseWeights.Proofs.Solve

/-!
The document of a study. Its own fields have different names and no moments of
time, and the numbers of iterations in it are small enough to be written, since
they are counted in words. So whether it can be written depends on the
configuration, and a configuration that could be read and printed fails to be
written only for a moment in it.
-/

namespace SparseWeights

section Counting

variable {α : Type} [Scalar α] {n : ℕ}

theorem Job.length_records_le (job : Job α n) (elapsed : ℕ → α) :
    (job.trace elapsed).records.length ≤ job.settings.maxIter := by
  by_cases hcount : job.settings.maxIter < countLimit
  · have houtcome := job.trace_outcome elapsed hcount
    generalize job.trace elapsed = trace at houtcome
    cases houtcome with
    | exhausted steps last hpasses hlength => simp [hlength]
    | stopped steps final stop hpasses hlength => simpa using hlength
    | failed steps cause hpasses hlength => simpa using hlength.le
  · rw [job.trace_of_countLimit elapsed hcount]
    exact Nat.zero_le _

/-- The iterations of an answer are counted in words. -/
theorem Job.counts_of_result {job : Job α n} {elapsed : ℕ → α} {result : Result α n}
    (h : job.result elapsed = .ok result) :
    result.iterations < countLimit ∧ ∀ r ∈ result.history, r.iteration < countLimit := by
  have hcount : job.settings.maxIter < countLimit := by
    by_contra hcount
    rw [Job.result, job.trace_of_countLimit elapsed hcount] at h
    cases h
  have hlength := job.length_records_le elapsed
  obtain ⟨ending, -, h⟩ := bind_eq_ok_iff.mp h
  cases h
  refine ⟨lt_of_le_of_lt hlength hcount, fun r hr => ?_⟩
  obtain ⟨i, hi⟩ := List.mem_iff_getElem?.mp hr
  obtain ⟨step, hstep, rfl⟩ := exists_step_of_getElem? hi
  obtain ⟨hi : i < (job.trace elapsed).records.length, -⟩ := List.getElem?_eq_some_iff.mp hi
  rw [(record_of_step hstep).1]
  omega

end Counting

theorem SizedJob.result_of_run {job : SizedJob} {clock : Clock} {n : ℕ} {r : Result Float n}
    (h : (job.run clock).result = .ok ⟨n, r⟩) :
    ∃ sized : Job Float n, job = ⟨n, sized⟩ ∧ sized.result clock = .ok r := by
  obtain ⟨m, sized⟩ := job
  rw [SizedJob.run, Job.result_report] at h
  obtain ⟨result, hresult, heq⟩ := map_eq_ok_iff.mp h
  cases heq
  refine ⟨sized, rfl, ?_⟩
  cases htrace : (sized.trace clock).result sized.penalty sized.system.rho with
  | error cause =>
      rw [htrace] at hresult
      cases hresult
  | ok result =>
      rw [htrace] at hresult
      cases hresult
      exact htrace

namespace Command.Study

/-- A value that JSON can spell, and that has no number of too many digits. -/
structure Plain (v : Value) : Prop extends Json.Sound v where
  writable : v.isWritable = true

theorem plain_float (x : Float) : Plain (.float x) := ⟨Json.sound_of_flat rfl rfl rfl, rfl⟩

theorem plain_text (s : String) : Plain (.text s) := ⟨Json.sound_of_flat rfl rfl rfl, rfl⟩

theorem plain_count {k : ℕ} (h : k < Job.countLimit) : Plain (.int k) where
  toSound := Json.sound_of_flat rfl rfl rfl
  writable := by
    have hdigits : 63 ≤ Decimal.maxDigits := by decide
    rw [Value.isWritable, decide_eq_true_iff, Int.natAbs_natCast, Decimal.pow10_eq]
    generalize Decimal.maxDigits = digits at hdigits ⊢
    calc k < 2 ^ 63 := h
      _ ≤ 10 ^ 63 := Nat.pow_le_pow_left (by decide) 63
      _ ≤ 10 ^ digits := Nat.pow_le_pow_right (by decide) hdigits

theorem plain_list {items : List Value} (h : ∀ item ∈ items, Plain item) : Plain (.list items) where
  toSound := Json.sound_list fun item hitem => (h item hitem).toSound
  writable := by
    rw [Value.isWritable_list, List.all_eq_true]
    exact fun item hitem => (h item hitem).writable

theorem plain_record {fields : Fields} (h : ∀ field ∈ fields, Plain field.2)
    (hnames : (fields.map (·.1)).Nodup) : Plain (.record fields) where
  toSound := Json.sound_record (fun field hfield => (h field hfield).toSound) hnames
  writable := by
    rw [Value.isWritable_record, List.all_eq_true]
    exact fun field hfield => (h field hfield).writable

theorem plain_floats {n : ℕ} (v : Vec Float n) : Plain (floats v) :=
  plain_list (List.forall_mem_map.mpr fun x _ => plain_float x)

theorem plain_labels (labels : List String) : Plain (.list (labels.map .text)) :=
  plain_list (List.forall_mem_map.mpr fun s _ => plain_text s)

theorem plain_summary {n : ℕ} {r : Result Float n} (h : r.iterations < Job.countLimit) :
    Plain (.record (summary r)) := by
  refine plain_record ?_ (by simp [summary])
  simp only [summary, List.forall_mem_cons]
  exact ⟨plain_text _, plain_count h, plain_float _, plain_float _, plain_float _, plain_float _,
    List.forall_mem_nil _⟩

theorem plain_fields {r : Record ℕ Float} (h : r.iteration < Job.countLimit) :
    ∀ field ∈ r.generic.toFields, Plain field.2 := by
  refine List.forall_mem_cons.mpr ⟨plain_count h, ?_⟩
  rintro ⟨name, value⟩ hfield
  obtain ⟨x, -, rfl⟩ := List.mem_map.mp (List.of_mem_zip hfield).2
  exact plain_float x

theorem plain_cell {fields : Fields} (h : ∀ field ∈ fields, Plain field.2) (name : String) :
    Plain ((fields.get? name).getD .null) := by
  cases hfound : fields.get? name with
  | none => exact ⟨Json.sound_of_flat rfl rfl rfl, rfl⟩
  | some value =>
      obtain ⟨field, hfield, rfl⟩ := Option.map_eq_some_iff.mp hfound
      exact h field (List.mem_of_find?_eq_some hfield)

theorem plain_history {h : History ℕ Float} (hcounts : ∀ r ∈ h, r.iteration < Job.countLimit) :
    Plain (historyValue h) := by
  refine plain_record (List.forall_mem_map.mpr fun name _ => ?_) ?_
  · rw [List.map_map]
    exact plain_list (List.forall_mem_map.mpr fun r hr => plain_cell (plain_fields (hcounts r hr)) name)
  · rw [History.columns, List.map_map]
    change (Record.names.map id).Nodup
    rw [List.map_id]
    decide

/-- The fields of a document in front of the configuration. -/
def ownFields {n : ℕ} (begun : Begun) (labels : List String) (r : Result Float n) : Fields := [
  ("data_path", .text (pathText begun.arguments.data)), ("labels", .list (labels.map .text)),
  ("w", floats r.w), ("alpha", floats r.alpha), ("beta", .float r.beta),
  ("summary", .record (summary r)), ("history", historyValue r.history)]

section Document

variable {n : ℕ} {begun : Begun} {labels : List String} {r : Result Float n}

theorem document_eq : document begun labels r =
    .record (ownFields begun labels r ++ [("config", begun.config)]) := rfl

theorem plain_ownFields (hiterations : r.iterations < Job.countLimit)
    (hcounts : ∀ record ∈ r.history, record.iteration < Job.countLimit) :
    ∀ field ∈ ownFields begun labels r, Plain field.2 := by
  simp only [ownFields, List.forall_mem_cons]
  exact ⟨plain_text _, plain_labels labels, plain_floats r.w, plain_floats r.alpha, plain_float _,
    plain_summary hiterations, plain_history hcounts, List.forall_mem_nil _⟩

theorem hasMoment_document (hown : ∀ field ∈ ownFields begun labels r, Plain field.2) :
    (document begun labels r).hasMoment = begun.config.hasMoment := by
  have hfree : (Value.record (ownFields begun labels r)).hasMoment = false :=
    Value.hasMoment_record_eq_false.mpr fun field hfield => (hown field hfield).free
  rw [Value.hasMoment_record] at hfree
  rw [document_eq, Value.hasMoment_record, List.any_append, hfree, Bool.false_or]
  exact Bool.or_false _

theorem isWritable_document (hown : ∀ field ∈ ownFields begun labels r, Plain field.2)
    (hconfig : begun.config.isWritable = true) : (document begun labels r).isWritable = true := by
  rw [document_eq, Value.isWritable_record, List.all_append, List.all_eq_true.mpr
    fun field hfield => (hown field hfield).writable]
  simpa using hconfig

theorem wellNamed_document (hown : ∀ field ∈ ownFields begun labels r, Plain field.2)
    (hconfig : begun.config.WellNamed) : (document begun labels r).WellNamed := by
  refine Value.wellNamed_record.mpr ⟨by simp, fun field hfield => ?_⟩
  rcases List.mem_append.mp (show field ∈ ownFields begun labels r ++ [("config", begun.config)]
    from hfield) with hfield | hfield
  · exact (hown field hfield).named
  · obtain rfl := List.mem_singleton.mp hfield
    exact hconfig

theorem depth_cell (r : Record ℕ Float) (name : String) :
    ((r.generic.toFields.get? name).getD .null).depth = 0 := by
  cases hfound : r.generic.toFields.get? name with
  | none => rfl
  | some value =>
      obtain ⟨field, hfield, rfl⟩ := Option.map_eq_some_iff.mp hfound
      rcases List.mem_cons.mp (List.mem_of_find?_eq_some hfield) with rfl | hfield
      · rfl
      · obtain ⟨x, -, hx⟩ := List.mem_map.mp (List.of_mem_zip (show (field.1, field.2) ∈ _ from
          hfield)).2
        rw [← hx]
        rfl

/-- The deepest of a document's own fields is the history. -/
theorem depth_document : (document begun labels r).depth = max 2 begun.config.depth + 1 := by
  have htexts : Value.depths (labels.map .text) = 0 :=
    Value.depths_of_flat (List.forall_mem_map.mpr fun _ _ => rfl)
  have hfloats (v : Vec Float n) : Value.depths (v.toList.map .float) = 0 :=
    Value.depths_of_flat (List.forall_mem_map.mpr fun _ _ => rfl)
  have hcolumn (name : String) : Value.depths ((r.history.map Record.generic).map fun record =>
      (record.toFields.get? name).getD .null) = 0 := by
    rw [List.map_map]
    exact Value.depths_of_flat (List.forall_mem_map.mpr fun record _ => depth_cell record name)
  simp only [document, floats, summary, historyValue, History.columns, Record.names,
    Record.measurementNames, List.map_cons, List.map_nil, Value.depth, Value.depthFields, htexts,
    hfloats, hcolumn]
  omega

end Document

end Command.Study

end SparseWeights
