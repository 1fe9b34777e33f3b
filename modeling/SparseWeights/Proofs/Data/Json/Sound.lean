import SparseWeights.Data.Json.Reader
import SparseWeights.Proofs.Data.Parts
import SparseWeights.Proofs.Data.Value
import SparseWeights.Proofs.Error

/-!
What JSON can spell. A value that was read from a JSON text is well-named, since
of two fields of one name only one stands, and there are no moments of time in it.
-/

namespace SparseWeights.Json

/-- Of a value that JSON can spell. -/
structure Sound (v : Value) : Prop where
  named : v.WellNamed
  free : v.hasMoment = false

theorem sound_of_flat {v : Value} (hnames : v.names = []) (hparts : v.parts = [])
    (hfree : v.hasMoment = false) : Sound v :=
  ⟨Value.wellNamed_of_parts_eq_nil hnames hparts, hfree⟩

theorem sound_list {items : List Value} (h : ∀ item ∈ items, Sound item) : Sound (.list items) where
  named := Value.wellNamed_list.mpr fun item hitem => (h item hitem).named
  free := Value.hasMoment_list_eq_false.mpr fun item hitem => (h item hitem).free

theorem sound_record {fields : Fields} (h : ∀ field ∈ fields, Sound field.2)
    (hnames : (fields.map (·.1)).Nodup) : Sound (.record fields) where
  named := Value.wellNamed_record.mpr ⟨hnames, fun field hfield => (h field hfield).named⟩
  free := Value.hasMoment_record_eq_false.mpr fun field hfield => (h field hfield).free

theorem sound_of_words {word : List Char} {value : Value} (h : (word, value) ∈ words) :
    Sound value := by
  simp only [words, List.mem_cons, List.not_mem_nil, or_false, Prod.mk.injEq] at h
  rcases h with ⟨-, rfl⟩ | ⟨-, rfl⟩ | ⟨-, rfl⟩ | ⟨-, rfl⟩ | ⟨-, rfl⟩ | ⟨-, rfl⟩ <;>
    exact sound_of_flat rfl rfl rfl

theorem sound_of_word? {cs rest : List Char} {value : Value} (h : word? cs = some (value, rest)) :
    Sound value := by
  obtain ⟨⟨word, _⟩, hmem, hfound⟩ := List.exists_of_findSome?_eq_some h
  obtain ⟨_, -, heq⟩ := Option.map_eq_some_iff.mp hfound
  obtain ⟨rfl, -⟩ := Prod.mk.inj heq
  exact sound_of_words hmem

theorem sound_of_unsigned {negative : Bool} {cs rest : List Char} {value : Value}
    (h : unsigned negative cs = .ok (value, rest)) : Sound value := by
  rw [unsigned] at h
  split at h
  · cases h
  · split at h
    · rw [wholeNumber] at h
      split at h
      · cases h
        exact sound_of_flat rfl rfl rfl
      · cases h
    · cases h
      exact sound_of_flat rfl rfl rfl
    · cases h
      exact sound_of_flat rfl rfl rfl

theorem sound_of_number {cs rest : List Char} {value : Value} (h : number cs = .ok (value, rest)) :
    Sound value := by
  rw [number.eq_def] at h
  split at h
  · exact sound_of_unsigned h
  · exact sound_of_unsigned h

theorem sound_ofList {fields : Fields} (h : ∀ field ∈ fields, Sound field.2) :
    Sound (.record (Fields.ofList fields)) := by
  have hwrites : ∀ writes fields : Fields, (∀ field ∈ writes, Sound field.2) →
      (fields.map (·.1)).Nodup → (∀ field ∈ fields, Sound field.2) →
        Sound (.record (writes.foldl (fun all field => Fields.put field.1 field.2 all) fields)) := by
    intro writes
    induction writes with
    | nil => exact fun fields _ hnames hfields => sound_record hfields hnames
    | cons field rest ih =>
        intro fields hwrites hnames hfields
        obtain ⟨hfield, hrest⟩ := List.forall_mem_cons.mp hwrites
        refine ih _ hrest (Fields.nodup_put hnames field.1 field.2) fun other hother => ?_
        rcases Fields.mem_put hother with rfl | hother
        · exact hfield
        · exact hfields other hother
  exact hwrites fields [] h List.nodup_nil (List.forall_mem_nil _)

/-- What is read with a bound on the steps is sound. -/
structure SoundWithin (fuel : ℕ) : Prop where
  value {levels : ℕ} {cs rest : List Char} {v : Value} :
    valueAt fuel levels cs = .ok (v, rest) → Sound v
  items {levels : ℕ} {cs rest : List Char} {items : List Value} :
    itemsAt fuel levels cs = .ok (items, rest) → ∀ item ∈ items, Sound item
  fields {levels : ℕ} {cs rest : List Char} {fields : Fields} :
    fieldsAt fuel levels cs = .ok (fields, rest) → ∀ field ∈ fields, Sound field.2

namespace SoundWithin

variable {fuel levels : ℕ} {cs rest : List Char} (h : SoundWithin fuel)

include h

theorem valueAt_succ {v : Value} (hread : valueAt (fuel + 1) levels cs = .ok (v, rest)) :
    Sound v := by
  rw [valueAt.eq_def] at hread
  dsimp only at hread
  split at hread
  · obtain ⟨_, -, heq⟩ := map_eq_ok_iff.mp hread
    cases heq
    exact sound_of_flat rfl rfl rfl
  · cases hread
  · cases hread
  · split at hread
    · cases hread
      exact sound_list (List.forall_mem_nil _)
    · obtain ⟨found, hitems, heq⟩ := map_eq_ok_iff.mp hread
      cases heq
      exact sound_list (h.items hitems)
  · split at hread
    · cases hread
      exact sound_record (List.forall_mem_nil _) List.nodup_nil
    · obtain ⟨found, hfields, heq⟩ := map_eq_ok_iff.mp hread
      cases heq
      exact sound_ofList (h.fields hfields)
  · cases hword : word? cs with
    | none =>
        rw [hword] at hread
        exact sound_of_number hread
    | some found =>
        rw [hword] at hread
        cases hread
        exact sound_of_word? hword

theorem itemsAt_succ {items : List Value}
    (hread : itemsAt (fuel + 1) levels cs = .ok (items, rest)) : ∀ item ∈ items, Sound item := by
  rw [itemsAt] at hread
  obtain ⟨⟨item, more⟩, hitem, hread⟩ := bind_eq_ok_iff.mp hread
  dsimp only at hread
  split at hread
  · cases hread
    exact List.forall_mem_singleton.mpr (h.value hitem)
  · obtain ⟨⟨others, tail⟩, hothers, hread⟩ := bind_eq_ok_iff.mp hread
    cases hread
    exact List.forall_mem_cons.mpr ⟨h.value hitem, h.items hothers⟩
  · cases hread

theorem fieldsAt_succ {fields : Fields}
    (hread : fieldsAt (fuel + 1) levels cs = .ok (fields, rest)) :
    ∀ field ∈ fields, Sound field.2 := by
  rw [fieldsAt.eq_def] at hread
  dsimp only at hread
  split at hread
  · obtain ⟨⟨name, behind⟩, -, hread⟩ := bind_eq_ok_iff.mp hread
    dsimp only at hread
    split at hread
    · obtain ⟨⟨value, more⟩, hvalue, hread⟩ := bind_eq_ok_iff.mp hread
      dsimp only at hread
      split at hread
      · cases hread
        exact List.forall_mem_singleton.mpr (h.value hvalue)
      · obtain ⟨⟨others, tail⟩, hothers, hread⟩ := bind_eq_ok_iff.mp hread
        cases hread
        exact List.forall_mem_cons.mpr ⟨h.value hvalue, h.fields hothers⟩
      · cases hread
    · cases hread
  · cases hread

end SoundWithin

theorem soundWithin (fuel : ℕ) : SoundWithin fuel := by
  induction fuel with
  | zero => exact ⟨nofun, nofun, nofun⟩
  | succ fuel ih => exact ⟨ih.valueAt_succ, ih.itemsAt_succ, ih.fieldsAt_succ⟩

theorem sound_of_readWithin {levels : ℕ} {s : String} {v : Value}
    (h : readWithin levels s = .ok v) : Sound v := by
  rw [readWithin] at h
  obtain ⟨⟨value, rest⟩, hvalue, h⟩ := bind_eq_ok_iff.mp h
  dsimp only at h
  split at h
  · cases h
    exact (soundWithin _).value hvalue
  · cases h

end SparseWeights.Json
