import SparseWeights.Proofs.Admm.Options
import SparseWeights.Proofs.Decimal.Range

/-!
Options that are refused. The settings are converted in their order, and the first of
them that keeps nothing of its value decides the error. It is a fault of the numbers
where the conversion overflows, on infinity as a limit or on a whole number beyond the
doubles, and an invalid setting otherwise, as it is when a check fails.
-/

namespace SparseWeights

namespace Value

theorem toFloat_eq_tooLarge_iff {value : Value} :
    value.toFloat = .error .tooLarge ↔
      ∃ n, value = .int n ∧ Decimal.Binary64.overflow ≤ n.natAbs := by
  cases value with
  | int n =>
      simp only [toFloat, int.injEq, exists_eq_left', ← Decimal.Binary64.ofInt?_eq_none_iff]
      cases Decimal.Binary64.ofInt? n <;> simp
  | text s => simp [toFloat, elim_ne_error]
  | _ => simp [toFloat]

theorem toInt_eq_tooLarge_iff {value : Value} :
    value.toInt = .error .tooLarge ↔ ∃ x, value = .float x ∧ x.isInf = true := by
  cases value with
  | float x =>
      have hnan : x.isInf = true → x.isNaN = false := by
        change (Float.Model.unpack x.toModel).isInf = true →
          (Float.Model.unpack x.toModel).isNaN = false
        cases Float.Model.unpack x.toModel <;>
          simp [Float.Model.UnpackedFloat.isInf, Float.Model.UnpackedFloat.isNaN]
      simp only [toInt, float.injEq, exists_eq_left']
      grind
  | text s => simp [toInt, elim_ne_error]
  | _ => simp [toInt]

end Value

namespace Setting

/-- The values that are numbers, but beyond what a setting converts to: infinity as a
whole number, and a whole number without a nearest double as a double. -/
def Overflows : Setting → Value → Prop
  | maxIter, .float x => x.isInf = true
  | tolInfeas, .int n | tolRelGap, .int n | rho, .int n | timeLimit, .int n =>
      Decimal.Binary64.overflow ≤ n.natAbs
  | _, _ => False

end Setting

namespace Settings

theorem number_eq_tooLarge_iff {β : Type} {conversion : Except Fault β} :
    number conversion = .error (.fault .tooLarge) ↔ conversion = .error .tooLarge := by
  cases conversion with
  | ok x => simp [number]
  | error cause => cases cause <;> simp [number]

/-- A number is refused for its size or for its kind. -/
theorem number_eq_error {β : Type} {conversion : Except Fault β} {e : Error}
    (h : number conversion = .error e) :
    e = .fault .tooLarge ∨ e = .invalid .settingNotNumber := by
  unfold number at h
  split at h <;> cases h <;> simp

theorem number?_eq_error_iff {value : Value} {e : Error} :
    number? value = .error e ↔ value ≠ .null ∧ number value.toFloat = .error e := by
  cases value with
  | null => simp [number?]
  | _ =>
      simp only [number?, ne_eq, reduceCtorEq, not_false_eq_true, true_and]
      exact map_eq_error_iff

end Settings

namespace Setting

variable {setting : Setting} {value : Value} {e : Error}

theorem keep_eq_error (h : setting.keep value = .error e) :
    e = .fault .tooLarge ∨ e = .invalid .settingNotNumber := by
  cases setting with
  | maxIter | tolInfeas | tolRelGap => exact Settings.number_eq_error (map_eq_error_iff.mp h)
  | rho | timeLimit =>
      obtain ⟨_, hnumber⟩ := Settings.number?_eq_error_iff.mp (map_eq_error_iff.mp h)
      exact Settings.number_eq_error hnumber
  | verbose | progress => cases h

theorem keep_eq_tooLarge_iff :
    setting.keep value = .error (.fault .tooLarge) ↔ setting.Overflows value := by
  cases setting with
  | maxIter =>
      rw [keep, map_eq_error_iff, Settings.number_eq_tooLarge_iff, Value.toInt_eq_tooLarge_iff]
      cases value <;> simp [Overflows]
  | tolInfeas | tolRelGap =>
      rw [keep, map_eq_error_iff, Settings.number_eq_tooLarge_iff, Value.toFloat_eq_tooLarge_iff]
      cases value <;> simp [Overflows]
  | rho | timeLimit =>
      rw [keep, map_eq_error_iff, Settings.number?_eq_error_iff, Settings.number_eq_tooLarge_iff,
        Value.toFloat_eq_tooLarge_iff]
      cases value <;> simp [Overflows]
  | verbose | progress => simp [keep, Overflows]

end Setting

namespace Settings

variable {draft : Draft} {e : Error}

/-- The settings are converted one after the other, so the first that refuses its
value decides. -/
theorem Numbers.ofDraft_eq_error_iff :
    Numbers.ofDraft draft = .error e ↔
      Setting.all.mapM (fun setting => setting.keep (draft setting)) = .error e := by
  have hstop {α β : Type} (cause : Error) :
      (Except.error cause : Except Error α) = .error e ↔
        (Except.error cause : Except Error β) = .error e := by
    rw [Except.error.injEq, Except.error.injEq]
  simp only [Numbers.ofDraft, Setting.all, List.mapM_cons, List.mapM_nil, Setting.keep]
  cases number (draft .maxIter).toInt with
  | error cause => exact hstop cause
  | ok limit =>
  cases number (draft .tolInfeas).toFloat with
  | error cause => exact hstop cause
  | ok tolInfeas =>
  cases number (draft .tolRelGap).toFloat with
  | error cause => exact hstop cause
  | ok tolRelGap =>
  cases number? (draft .rho) with
  | error cause => exact hstop cause
  | ok rho =>
  cases number? (draft .timeLimit) with
  | error cause => exact hstop cause
  | ok timeLimit => exact iff_of_false (by rintro ⟨⟩) (by rintro ⟨⟩)

/-- A draft fails with the refusal of a setting, or with that of a check. -/
theorem ofDraft_eq_error (h : ofDraft draft = .error e) :
    e = .fault .tooLarge ∨ ∃ cause, e = .invalid cause := by
  obtain hnumbers | ⟨x, _, hchecks⟩ := bind_eq_error_iff.mp h
  · obtain ⟨_, _, _, _, _, hkeep⟩ := mapM_eq_error_iff.mp (Numbers.ofDraft_eq_error_iff.mp hnumbers)
    exact (Setting.keep_eq_error hkeep).imp_right fun hcause => ⟨_, hcause⟩
  · obtain ⟨cause, _, rfl⟩ := liftM_invalid_eq_error_iff.mp hchecks
    exact .inr ⟨cause, rfl⟩

theorem ofDraft_eq_tooLarge_iff :
    ofDraft draft = .error (.fault .tooLarge) ↔
      ∃ before setting after, Setting.all = before ++ setting :: after ∧
        (∀ earlier ∈ before, ∃ kept, earlier.keep (draft earlier) = .ok kept) ∧
        setting.Overflows (draft setting) := by
  have hchecks (x : Numbers Float) : (liftM (ofNumbers x (draft .verbose) (draft .progress)) :
      Except Error (Settings Float)) ≠ .error (.fault .tooLarge) := by
    intro h
    obtain ⟨_, _, hinvalid⟩ := liftM_invalid_eq_error_iff.mp h
    cases hinvalid
  have hnumbers : ofDraft draft = .error (.fault .tooLarge) ↔
      Numbers.ofDraft draft = .error (.fault .tooLarge) := by
    rw [ofDraft, bind_eq_error_iff]
    apply or_iff_left
    rintro ⟨x, _, h⟩
    exact hchecks x h
  rw [hnumbers, Numbers.ofDraft_eq_error_iff, mapM_eq_error_iff]
  simp only [Setting.keep_eq_tooLarge_iff]

theorem not_overflows_toDraft (settings : Settings Float) (setting : Setting) :
    ¬ setting.Overflows (settings.toDraft setting) := by
  rw [← Setting.keep_eq_tooLarge_iff, keep_toDraft]
  exact nofun

/-- Options laid over any settings make settings or are refused as invalid, unless a
conversion overflows. That is a fault, and it comes about if some setting ends up with
a value that overflows while every setting in front of it keeps something of its own. -/
theorem withOptions_refuses (base : Settings Float) (options : Fields) :
    ((∃ settings, base.withOptions (.record options) = .ok settings) ∨
      (∃ cause, base.withOptions (.record options) = .error (.invalid cause)) ∨
      base.withOptions (.record options) = .error (.fault .tooLarge)) ∧
    (base.withOptions (.record options) = .error (.fault .tooLarge) ↔
      ∃ before setting after, Setting.all = before ++ setting :: after ∧
        (∀ earlier ∈ before, ∃ kept,
          earlier.keep ((earlier.last? options).getD (base.toDraft earlier)) = .ok kept) ∧
        setting.Overflows ((setting.last? options).getD (base.toDraft setting))) := by
  cases options with
  | nil =>
      have hlaid : base.withOptions (.record []) = .ok base := rfl
      rw [hlaid]
      refine ⟨.inl ⟨base, rfl⟩, iff_of_false nofun ?_⟩
      rintro ⟨_, setting, _, _, _, hoverflows⟩
      exact base.not_overflows_toDraft setting hoverflows
  | cons option rest =>
      have hlaid : base.withOptions (.record (option :: rest)) =
          ofDraft (base.toDraft.putOptions (option :: rest)) := rfl
      simp only [hlaid, ← Draft.putOptions_apply]
      refine ⟨?_, ofDraft_eq_tooLarge_iff⟩
      cases hdraft : ofDraft (base.toDraft.putOptions (option :: rest)) with
      | ok settings => exact .inl ⟨settings, rfl⟩
      | error e =>
          obtain rfl | ⟨cause, rfl⟩ := ofDraft_eq_error hdraft
          · exact .inr (.inr rfl)
          · exact .inr (.inl ⟨cause, rfl⟩)

/-- A tolerance that is a whole number beyond the doubles, and a limit that is infinite. -/
theorem withOptions_tooLarge :
    default.withOptions (.record [("tol_infeas", .int (10 ^ 400))]) = .error (.fault .tooLarge) ∧
      default.withOptions (.record [("max_iter", .float (1 / 0))]) = .error (.fault .tooLarge) := by
  have hlarge : Decimal.Binary64.overflow ≤ (10 ^ 400 : ℤ).natAbs := by
    rw [Int.natAbs_pow]
    decide +kernel
  constructor
  · apply ofDraft_eq_tooLarge_iff.mpr
    refine ⟨[.maxIter], .tolInfeas, _, rfl, ?_, hlarge⟩
    rintro earlier hearlier
    obtain rfl := List.mem_singleton.mp hearlier
    exact ⟨_, rfl⟩
  · apply ofDraft_eq_tooLarge_iff.mpr
    refine ⟨[], .maxIter, _, rfl, nofun, ?_⟩
    change (1 / 0 : Float).isInf = true
    decide +kernel

end Settings

end SparseWeights
