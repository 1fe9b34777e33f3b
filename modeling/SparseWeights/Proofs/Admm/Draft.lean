import Mathlib.Tactic.Lift
import Mathlib.Data.Int.Basic
import SparseWeights.Proofs.Admm.Settings
import SparseWeights.Proofs.Error

/-!
Drafts setting by setting. A setting keeps a number for the value that it is
given, or refuses the value. A draft becomes settings exactly if every setting keeps
something of its value and finds it in its range. So drafts in which every setting
keeps the same become the same settings, or fail alike, and settings that passed the
checks pass them again.
-/

namespace SparseWeights

namespace Setting

/-- What a setting keeps of a value. -/
def keep (setting : Setting) (value : Value) : Except Error Value :=
  match setting with
  | maxIter => (Settings.number value.toInt).map .int
  | tolInfeas | tolRelGap => (Settings.number value.toFloat).map .float
  | rho | timeLimit => (Settings.number? value).map Settings.optionalNumber
  | verbose | progress => .ok value

/-- The range of a setting, among the values that it keeps. Nothing is at most zero
or above it that is NaN. -/
def InRange : Setting → Value → Prop
  | maxIter, .int n => 0 < n
  | tolInfeas, .float x | tolRelGap, .float x => 0 < x
  | rho, .null | timeLimit, .null => True
  | rho, .float x => x.isFinite = true ∧ 0 < x
  | timeLimit, .float x => ¬ x ≤ 0
  | verbose, _ | progress, _ => True
  | _, _ => False

/-- A setting admits the values of which it keeps something in its range. -/
def Admits (setting : Setting) (value : Value) : Prop :=
  ∃ kept, setting.keep value = .ok kept ∧ setting.InRange kept

theorem forall_iff {motive : Setting → Prop} :
    (∀ setting, motive setting) ↔ motive .maxIter ∧ motive .tolInfeas ∧
      motive .tolRelGap ∧ motive .rho ∧ motive .verbose ∧ motive .progress ∧
      motive .timeLimit := by
  constructor
  · intro h
    exact ⟨h _, h _, h _, h _, h _, h _, h _⟩
  · rintro ⟨hiter, hinfeas, hgap, hrho, hverbose, hprogress, htime⟩ setting
    cases setting <;> assumption

theorem number?_optionalNumber (x : Option Float) :
    Settings.number? (Settings.optionalNumber x) = .ok x := by
  cases x <;> rfl

end Setting

namespace Settings

theorem optionalNumber_injective : Function.Injective optionalNumber := by
  intro x y h
  cases x <;> cases y <;> simp_all [optionalNumber]

/-- What is in settings is kept as it is. -/
theorem keep_toDraft (settings : Settings Float) (setting : Setting) :
    setting.keep (settings.toDraft setting) = .ok (settings.toDraft setting) := by
  cases setting with
  | rho => exact map_eq_ok_iff.mpr ⟨_, Setting.number?_optionalNumber _, rfl⟩
  | timeLimit => exact map_eq_ok_iff.mpr ⟨_, Setting.number?_optionalNumber _, rfl⟩
  | maxIter | tolInfeas | tolRelGap | verbose | progress => rfl

theorem invalid?_numbers_iff (settings : Settings Float) :
    settings.numbers.invalid? = none ↔
      ∀ setting : Setting, setting.InRange (settings.toDraft setting) := by
  have hrho : settings.rho.any (fun rho => !Scalar.isPositive rho) = false ↔
      Setting.InRange .rho (optionalNumber settings.rho) := by
    cases settings.rho <;> simp [Setting.InRange, optionalNumber, Scalar.isPositive, Scalar.isFinite]
  have htime : settings.timeLimit.any (fun limit => decide (limit ≤ 0)) = false ↔
      Setting.InRange .timeLimit (optionalNumber settings.timeLimit) := by
    cases settings.timeLimit <;> simp [Setting.InRange, optionalNumber]
  rw [Numbers.invalid?_eq_none, Setting.forall_iff]
  simp only [numbers, toDraft, hrho, htime]
  simp [Setting.InRange, and_assoc]

variable {draft draft' : Draft} {settings : Settings Float}

theorem Numbers.ofDraft_eq_ok_iff {x : Numbers Float} :
    Numbers.ofDraft draft = .ok x ↔
      number (draft .maxIter).toInt = .ok x.maxIter ∧
      number (draft .tolInfeas).toFloat = .ok x.tolInfeas ∧
      number (draft .tolRelGap).toFloat = .ok x.tolRelGap ∧
      number? (draft .rho) = .ok x.rho ∧ number? (draft .timeLimit) = .ok x.timeLimit := by
  obtain ⟨maxIter, tolInfeas, tolRelGap, rho, timeLimit⟩ := x
  simp only [Numbers.ofDraft, bind_eq_ok_iff, pure, Except.pure, Except.ok.injEq, mk.injEq]
  grind

/-- A draft becomes settings that hold what every setting keeps of its value, as far as
that is in its range. -/
theorem ofDraft_eq_ok_iff :
    ofDraft draft = .ok settings ↔
      ∀ setting : Setting, setting.keep (draft setting) = .ok (settings.toDraft setting) ∧
        setting.InRange (settings.toDraft setting) := by
  have hread : ofDraft draft = .ok settings ↔
      Numbers.ofDraft draft = .ok settings.numbers ∧ settings.numbers.invalid? = none ∧
        settings.verbose = draft .verbose ∧ settings.progress = draft .progress := by
    simp only [ofDraft, bind_eq_ok_iff, liftM_invalid_eq_ok_iff, ofNumbers_eq_ok_iff]
    grind
  rw [hread, forall_and, ← invalid?_numbers_iff, Setting.forall_iff,
    Numbers.ofDraft_eq_ok_iff]
  simp only [Setting.keep, toDraft, map_eq_ok_iff, Value.int.injEq, Value.float.injEq,
    exists_eq_right, optionalNumber_injective.eq_iff, Except.ok.injEq, numbers]
  grind

theorem Valid.inRange (hvalid : settings.Valid) (setting : Setting) :
    setting.InRange (settings.toDraft setting) := by
  obtain ⟨_, _, _, hnumbers⟩ := hvalid
  obtain ⟨hrange, _⟩ := ofNumbers_eq_ok_iff.mp hnumbers
  exact settings.invalid?_numbers_iff.mp hrange setting

/-- Settings that passed the checks are what becomes of their own draft. -/
theorem ofDraft_toDraft (hvalid : settings.Valid) :
    ofDraft settings.toDraft = .ok settings :=
  ofDraft_eq_ok_iff.mpr fun setting => ⟨settings.keep_toDraft setting, hvalid.inRange setting⟩

theorem valid_of_ofDraft (h : ofDraft draft = .ok settings) : settings.Valid := by
  obtain ⟨x, _, hnumbers⟩ := bind_eq_ok_iff.mp h
  exact ⟨x, _, _, liftM_invalid_eq_ok_iff.mp hnumbers⟩

/-- A draft becomes settings if every setting admits its value, whatever the others hold. -/
theorem exists_ofDraft_iff :
    (∃ settings, ofDraft draft = .ok settings) ↔
      ∀ setting : Setting, setting.Admits (draft setting) := by
  constructor
  · rintro ⟨settings, h⟩ setting
    exact ⟨_, ofDraft_eq_ok_iff.mp h setting⟩
  · intro h
    obtain ⟨⟨_, hiter, hpositive⟩, ⟨_, hinfeas, hinfeas_range⟩, ⟨_, hgap, hgap_range⟩,
      ⟨_, hrho, hrho_range⟩, _, _, ⟨_, htime, htime_range⟩⟩ := Setting.forall_iff.mp h
    obtain ⟨limit, _, rfl⟩ := map_eq_ok_iff.mp hiter
    obtain ⟨tolInfeas, _, rfl⟩ := map_eq_ok_iff.mp hinfeas
    obtain ⟨tolRelGap, _, rfl⟩ := map_eq_ok_iff.mp hgap
    obtain ⟨rho, _, rfl⟩ := map_eq_ok_iff.mp hrho
    obtain ⟨timeLimit, _, rfl⟩ := map_eq_ok_iff.mp htime
    lift limit to ℕ using Int.le_of_lt hpositive
    refine ⟨⟨limit, tolInfeas, tolRelGap, rho, draft .verbose, draft .progress, timeLimit⟩,
      ofDraft_eq_ok_iff.mpr (Setting.forall_iff.mpr ?_)⟩
    exact ⟨⟨hiter, hpositive⟩, ⟨hinfeas, hinfeas_range⟩, ⟨hgap, hgap_range⟩,
      ⟨hrho, hrho_range⟩, ⟨rfl, trivial⟩, ⟨rfl, trivial⟩, ⟨htime, htime_range⟩⟩

private theorem map_injective {ε α β : Type} {f : α → β} (hf : Function.Injective f)
    {x y : Except ε α} (h : x.map f = y.map f) : x = y := by
  cases x <;> cases y <;> simp_all [Except.map, hf.eq_iff]

/-- Nothing of a draft matters but what the settings keep of it. -/
theorem ofDraft_congr
    (hkeep : ∀ setting : Setting, setting.keep (draft setting) = setting.keep (draft' setting)) :
    ofDraft draft = ofDraft draft' := by
  have hint : Function.Injective Value.int := fun _ _ => Value.int.inj
  have hfloat : Function.Injective Value.float := fun _ _ => Value.float.inj
  have hiter := map_injective hint (hkeep .maxIter)
  have hinfeas := map_injective hfloat (hkeep .tolInfeas)
  have hgap := map_injective hfloat (hkeep .tolRelGap)
  have hrho := map_injective optionalNumber_injective (hkeep .rho)
  have htime := map_injective optionalNumber_injective (hkeep .timeLimit)
  have hverbose := Except.ok.inj (hkeep .verbose)
  have hprogress := Except.ok.inj (hkeep .progress)
  simp only [ofDraft, Numbers.ofDraft, hiter, hinfeas, hgap, hrho, htime, hverbose, hprogress]

end Settings

end SparseWeights
