import SparseWeights.Proofs.Admm.Draft
import SparseWeights.Proofs.Comparison

/-!
Options laid over settings. The last option for a setting counts, under its name
or its alias, and where there is none the setting keeps what it had; options that
mean no setting are as if they were not there. Settings that passed the checks may
be converted and checked again without a change, so options may be laid over them
in one go or one part after the other, and settings are built again from their own
fields.
-/

namespace SparseWeights

namespace Setting

/-- A setting goes by its name and by its alias. -/
def Means (setting : Setting) (key : String) : Prop :=
  key = setting.name ∨ setting.alias? = some key

instance (setting : Setting) (key : String) : Decidable (setting.Means key) :=
  inferInstanceAs (Decidable (_ ∨ _))

/-- No two settings go by one name. -/
theorem ofOption?_eq_some_iff {key : String} {setting : Setting} :
    ofOption? key = some setting ↔ setting.Means key := by
  constructor
  · intro h
    have hfound := List.find?_some h
    rw [Bool.or_eq_true, beq_iff_eq, beq_iff_eq] at hfound
    exact hfound.imp_left Eq.symm
  · rintro (rfl | halias)
    · cases setting <;> rfl
    · cases setting <;> cases halias <;> rfl

/-- The value of the last option for a setting. -/
def last? (setting : Setting) (options : Fields) : Option Value :=
  (options.reverse.find? fun option => decide (setting.Means option.1)).map (·.2)

end Setting

namespace Draft

variable (draft : Draft)

theorem putOptions_cons (option : String × Value) (rest : Fields) :
    draft.putOptions (option :: rest) = (draft.putOptions [option]).putOptions rest := rfl

theorem putOptions_append (options more : Fields) :
    draft.putOptions (options ++ more) = (draft.putOptions options).putOptions more :=
  List.foldl_append

theorem putOptions_singleton (option : String × Value) (setting : Setting) :
    draft.putOptions [option] setting =
      if setting.Means option.1 then option.2 else draft setting := by
  have hmeans : Setting.ofOption? option.1 = some setting ↔ setting.Means option.1 :=
    Setting.ofOption?_eq_some_iff
  simp only [putOptions, List.foldl_cons, List.foldl_nil]
  cases hoption : Setting.ofOption? option.1 with
  | none => simp [← hmeans, hoption]
  | some other => simp [← hmeans, hoption, put, eq_comm]

/-- A setting has the value of the last option for it, and what it had if there is none. -/
theorem putOptions_apply (options : Fields) (setting : Setting) :
    draft.putOptions options setting = (setting.last? options).getD (draft setting) := by
  induction options generalizing draft with
  | nil => rfl
  | cons option rest ih =>
      rw [putOptions_cons, ih, putOptions_singleton, Setting.last?, Setting.last?,
        List.reverse_cons, List.find?_append]
      cases rest.reverse.find? fun option => decide (setting.Means option.1) with
      | some found => rfl
      | none => by_cases h : setting.Means option.1 <;> simp [h]

end Draft

/-- The options that mean some setting. -/
def Fields.recognised (options : Fields) : Fields :=
  options.filter fun option => decide (∃ setting ∈ Setting.all, setting.Means option.1)

theorem Setting.last?_recognised (setting : Setting) (options : Fields) :
    setting.last? options.recognised = setting.last? options := by
  have hall : setting ∈ Setting.all := by
    cases setting <;> decide
  rw [last?, last?, Fields.recognised, ← List.filter_reverse, List.find?_filter]
  congr 2
  funext option
  simp only [decide_eq_true_eq, decide_eq_decide]
  exact and_iff_right_of_imp fun hmeans => ⟨setting, hall, hmeans⟩

namespace Settings

variable {base settings : Settings Float}

/-- The draft of settings covers every draft that it is laid over. -/
theorem putOptions_toFields (settings : Settings Float) (draft : Draft) :
    draft.putOptions settings.toFields = settings.toDraft := by
  funext setting
  rw [Draft.putOptions_apply]
  cases setting <;> rfl

/-- Laying options over settings is checking the draft, also where there are none. -/
theorem withOptions_record (hbase : base.Valid) (options : Fields) :
    base.withOptions (.record options) = ofDraft (base.toDraft.putOptions options) := by
  cases options with
  | nil => exact (ofDraft_toDraft hbase).symm
  | cons option rest => rfl

theorem ofFields_toFields (hvalid : settings.Valid) : ofFields settings.toFields = .ok settings := by
  have hnames : settings.toFields.any (fun field => (Setting.ofName? field.1).isNone) = false := rfl
  rw [ofFields, hnames, putOptions_toFields]
  exact ofDraft_toDraft hvalid

theorem withOptions_toFields (hvalid : settings.Valid) (base : Settings Float) :
    base.withOptions (.record settings.toFields) = .ok settings := by
  have hlaid : base.withOptions (.record settings.toFields) =
      ofDraft (base.toDraft.putOptions settings.toFields) := rfl
  rw [hlaid, putOptions_toFields, ofDraft_toDraft hvalid]

theorem withOptions_recognised (hbase : base.Valid) (options : Fields) :
    base.withOptions (.record options.recognised) = base.withOptions (.record options) := by
  have hdraft : base.toDraft.putOptions options.recognised = base.toDraft.putOptions options := by
    funext setting
    rw [Draft.putOptions_apply, Draft.putOptions_apply, Setting.last?_recognised]
  rw [withOptions_record hbase, withOptions_record hbase, hdraft]

/-- What was kept once is kept again, so options may be laid over in parts. -/
theorem withOptions_append (hbase : base.Valid) {first : Fields}
    (hfirst : base.withOptions (.record first) = .ok settings) (second : Fields) :
    settings.withOptions (.record second) = base.withOptions (.record (first ++ second)) := by
  rw [withOptions_record hbase] at hfirst
  rw [withOptions_record (valid_of_ofDraft hfirst), withOptions_record hbase,
    Draft.putOptions_append]
  apply ofDraft_congr
  intro setting
  rw [Draft.putOptions_apply, Draft.putOptions_apply]
  cases setting.last? second with
  | some value => rfl
  | none =>
      obtain ⟨hkept, _⟩ := ofDraft_eq_ok_iff.mp hfirst setting
      exact (settings.keep_toDraft setting).trans hkept.symm

/-- The settings that calls come to: those built from fields, and those that options
make of settings that were come to before. -/
inductive Reachable : Settings Float → Prop where
  | built {fields : Fields} {settings : Settings Float} (h : ofFields fields = .ok settings) :
      Reachable settings
  | merged {base settings : Settings Float} {options : Value} (hbase : Reachable base)
      (h : base.withOptions options = .ok settings) : Reachable settings

/-- Every call checks what it answers, or answers what was checked before. -/
theorem Reachable.valid (h : settings.Reachable) : settings.Valid := by
  induction h with
  | built h =>
      unfold ofFields at h
      split at h
      · cases h
      · exact valid_of_ofDraft h
  | merged _ h ih =>
      unfold withOptions at h
      split at h
      · exact Except.ok.inj h ▸ ih
      · split at h
        · exact valid_of_ofDraft h
        · cases h

theorem reachable_of_valid (hvalid : settings.Valid) : settings.Reachable :=
  .built (ofFields_toFields hvalid)

/-- The settings that can be come to are those with a limit above zero, tolerances above
zero, a step size, if any, that is finite and above zero, and a time limit, if any,
that is above zero or NaN: the check of the time limit asks whether it is at most
zero, and NaN is not. -/
theorem reachable_iff :
    settings.Reachable ↔ 0 < settings.maxIter ∧ 0 < settings.tolInfeas ∧
      0 < settings.tolRelGap ∧
      (∀ rho, settings.rho = some rho → rho.isFinite = true ∧ 0 < rho) ∧
      ∀ limit, settings.timeLimit = some limit → 0 < limit ∨ limit.isNaN = true := by
  have hreachable : settings.Reachable ↔ settings.Valid :=
    ⟨Reachable.valid, reachable_of_valid⟩
  have hrho : settings.rho.any (fun rho => !Scalar.isPositive rho) = false ↔
      ∀ rho, settings.rho = some rho → rho.isFinite = true ∧ 0 < rho := by
    cases settings.rho <;> simp [Scalar.isPositive, Scalar.isFinite]
  have htime : settings.timeLimit.any (fun limit => decide (limit ≤ 0)) = false ↔
      ∀ limit, settings.timeLimit = some limit → 0 < limit ∨ limit.isNaN = true := by
    cases settings.timeLimit with
    | none => simp
    | some limit =>
        simp only [Option.any_some, decide_eq_false_iff_not, Binary.not_le_zero_iff,
          Option.some.injEq, forall_eq']
  rw [hreachable, valid_iff, hrho, htime, and_assoc]

theorem default_valid : default.Valid :=
  valid_iff.mpr ⟨by decide, ⟨by decide +kernel, by decide +kernel⟩, rfl, rfl⟩

/-- A time limit that is written as NaN is accepted, and is not above zero. -/
theorem exists_reachable_nan :
    ∃ settings limit, ofFields [("time_limit", .text "nan")] = .ok settings ∧
      settings.Reachable ∧ settings.timeLimit = some limit ∧ ¬ 0 < limit := by
  have hkept (setting : Setting) : setting.keep
        (default.toDraft.putOptions [("time_limit", .text "nan")] setting) =
      .ok ({ default with timeLimit := some (0 / 0) }.toDraft setting) := by
    cases setting <;> rfl
  have hvalid : { default with timeLimit := some (0 / 0) }.Valid :=
    valid_iff.mpr ⟨by decide, ⟨by decide +kernel, by decide +kernel⟩, rfl, by decide +kernel⟩
  have hbuilt : ofFields [("time_limit", .text "nan")] =
      .ok { default with timeLimit := some (0 / 0) } := by
    rw [← ofDraft_toDraft hvalid]
    apply ofDraft_congr
    intro setting
    exact (hkept setting).trans (keep_toDraft _ setting).symm
  exact ⟨_, 0 / 0, hbuilt, .built hbuilt, rfl, by decide +kernel⟩

/-- Options laid over settings that can be come to: each setting takes what it keeps of
the last option for it and stays as it was without one; options that mean no setting
make no difference; only a setting that does not admit the value it ends up with is a
cause to fail. Settings are what becomes of their own fields, and options may be laid
over in parts, with the same answer or the same error. -/
theorem withOptions_merges (hbase : base.Reachable) :
    (∀ options : Fields,
      (∀ settings, base.withOptions (.record options) = .ok settings →
        ∀ setting : Setting,
          (∀ value, setting.last? options = some value →
            setting.keep value = .ok (settings.toDraft setting)) ∧
          (setting.last? options = none →
            settings.toDraft setting = base.toDraft setting)) ∧
      base.withOptions (.record options.recognised) = base.withOptions (.record options) ∧
      ((∃ e, base.withOptions (.record options) = .error e) ↔
        ∃ setting : Setting,
          ¬ setting.Admits ((setting.last? options).getD (base.toDraft setting)))) ∧
    (ofFields base.toFields = .ok base ∧
      ∀ other : Settings Float, other.withOptions (.record base.toFields) = .ok base) ∧
    ∀ (first second : Fields) (middle : Settings Float),
      base.withOptions (.record first) = .ok middle →
        middle.withOptions (.record second) =
          base.withOptions (.record (first ++ second)) := by
  have hvalid := hbase.valid
  refine ⟨fun options => ⟨?_, withOptions_recognised hvalid options, ?_⟩,
    ⟨ofFields_toFields hvalid, withOptions_toFields hvalid⟩,
    fun first second middle hfirst => withOptions_append hvalid hfirst second⟩
  · intro settings hmerged setting
    rw [withOptions_record hvalid] at hmerged
    obtain ⟨hkept, _⟩ := ofDraft_eq_ok_iff.mp hmerged setting
    rw [Draft.putOptions_apply] at hkept
    constructor
    · intro value hlast
      rwa [hlast] at hkept
    · intro hlast
      rw [hlast] at hkept
      exact Except.ok.inj (hkept.symm.trans (base.keep_toDraft setting))
  · have hadmits := @exists_ofDraft_iff (base.toDraft.putOptions options)
    simp only [Draft.putOptions_apply] at hadmits
    rw [← not_forall, ← hadmits, withOptions_record hvalid]
    cases ofDraft (base.toDraft.putOptions options) <;> simp

/-- A limit of zero is out of range, but it is replaced under the other name. -/
theorem withOptions_merges_replaced :
    default.Reachable ∧
    ∃ settings, default.withOptions (.record [("max_iter", .int 0), ("colour", .null),
        ("maxIter", .text "7")]) = .ok settings ∧
      settings.toDraft .maxIter = .int 7 ∧ settings.toDraft .rho = .null := by
  have hdefault : default.Reachable := reachable_of_valid default_valid
  refine ⟨hdefault, ?_⟩
  obtain ⟨hmerge, _⟩ := withOptions_merges hdefault
  obtain ⟨hvalues, _, hfails⟩ :=
    hmerge [("max_iter", .int 0), ("colour", .null), ("maxIter", .text "7")]
  cases hlaid : default.withOptions (.record [("max_iter", .int 0), ("colour", .null),
      ("maxIter", .text "7")]) with
  | error e =>
      obtain ⟨setting, hrefused⟩ := hfails.mp ⟨e, hlaid⟩
      refine absurd ?_ hrefused
      cases setting with
      | maxIter => exact ⟨.int 7, rfl, (by decide : (0 : Int) < 7)⟩
      | _ => exact ⟨_, keep_toDraft default _, default_valid.inRange _⟩
  | ok settings =>
      have hlimit : Setting.keep .maxIter (.text "7") = .ok (.int 7) := rfl
      have hkept := (hvalues settings hlaid .maxIter).1 (.text "7") rfl
      exact ⟨settings, rfl, Except.ok.inj (hkept.symm.trans hlimit),
        (hvalues settings hlaid .rho).2 rfl⟩

end Settings

end SparseWeights
