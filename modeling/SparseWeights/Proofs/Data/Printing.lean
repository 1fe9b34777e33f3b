import SparseWeights.Proofs.Data.Parts
import SparseWeights.Proofs.Error

/-!
Values as they are printed. A value comes out in the notation of messages exactly
if all of its whole numbers have one and it is no deeper than printing goes.
-/

namespace SparseWeights.Value

/-- What printing a value comes to, if the value can be printed. -/
def PrintsWithin (levels : ℕ) (v : Value) : Prop :=
  ∀ text, v.print levels = .ok text ↔ v.isWritable = true ∧ v.depth ≤ levels ∧ text = v.literal

theorem printsWithin_of_flat {v : Value} (hprint : ∀ levels, v.print levels = .ok v.literal)
    (hwritable : v.isWritable = true) (hflat : v.depth = 0) (levels : ℕ) :
    v.PrintsWithin levels := by
  intro text
  rw [hprint, Except.ok.injEq, hwritable, hflat]
  simp [eq_comm]

theorem printItems_eq_ok_iff {levels : ℕ} {items : List Value}
    (hitems : ∀ item ∈ items, item.PrintsWithin levels) {texts : List String} :
    printItems levels items = .ok texts ↔
      items.all isWritable = true ∧ depths items ≤ levels ∧ texts = literals items := by
  induction items generalizing texts with
  | nil => simp [printItems, depths, literals, eq_comm]
  | cons item rest ih =>
      obtain ⟨hitem, hrest⟩ := List.forall_mem_cons.mp hitems
      rw [printItems, bind_eq_ok_iff, List.all_cons, Bool.and_eq_true, depths, max_le_iff, literals]
      constructor
      · rintro ⟨text, htext, hmore⟩
        obtain ⟨others, hothers, heq⟩ := bind_eq_ok_iff.mp hmore
        obtain rfl := Except.ok.inj heq
        obtain ⟨hwritable, hdepth, rfl⟩ := (hitem text).mp htext
        obtain ⟨hall, hdepths, rfl⟩ := (ih hrest).mp hothers
        exact ⟨⟨hwritable, hall⟩, ⟨hdepth, hdepths⟩, rfl⟩
      · rintro ⟨⟨hwritable, hall⟩, ⟨hdepth, hdepths⟩, rfl⟩
        refine ⟨item.literal, (hitem _).mpr ⟨hwritable, hdepth, rfl⟩, ?_⟩
        exact bind_eq_ok_iff.mpr ⟨_, (ih hrest).mpr ⟨hall, hdepths, rfl⟩, rfl⟩

theorem printFields_eq_ok_iff {levels : ℕ} {fields : Fields}
    (hfields : ∀ field ∈ fields, field.2.PrintsWithin levels) {texts : List String} :
    printFields levels fields = .ok texts ↔
      (fields.all fun field => field.2.isWritable) = true ∧ depthFields fields ≤ levels ∧
        texts = literalFields fields := by
  induction fields generalizing texts with
  | nil => simp [printFields, depthFields, literalFields, eq_comm]
  | cons field rest ih =>
      obtain ⟨hfield, hrest⟩ := List.forall_mem_cons.mp hfields
      rw [printFields, bind_eq_ok_iff, List.all_cons, Bool.and_eq_true, depthFields, max_le_iff,
        literalFields]
      constructor
      · rintro ⟨text, htext, hmore⟩
        obtain ⟨others, hothers, heq⟩ := bind_eq_ok_iff.mp hmore
        obtain rfl := Except.ok.inj heq
        obtain ⟨hwritable, hdepth, rfl⟩ := (hfield text).mp htext
        obtain ⟨hall, hdepths, rfl⟩ := (ih hrest).mp hothers
        exact ⟨⟨hwritable, hall⟩, ⟨hdepth, hdepths⟩, rfl⟩
      · rintro ⟨⟨hwritable, hall⟩, ⟨hdepth, hdepths⟩, rfl⟩
        refine ⟨field.2.literal, (hfield _).mpr ⟨hwritable, hdepth, rfl⟩, ?_⟩
        exact bind_eq_ok_iff.mpr ⟨_, (ih hrest).mpr ⟨hall, hdepths, rfl⟩, rfl⟩

theorem print_eq_ok_iff (v : Value) (levels : ℕ) : v.PrintsWithin levels := by
  induction v using byParts generalizing levels with
  | null | bool | float | text | moment =>
      exact printsWithin_of_flat (fun _ => by simp [print]) rfl rfl levels
  | int n =>
      intro text
      rw [print, isWritable, decide_eq_true_iff]
      split
      next hdigits => simp [hdigits, literal, depth, eq_comm]
      next hdigits => simp [hdigits]
  | list items ih =>
      intro text
      cases levels with
      | zero => simp [print, depth]
      | succ levels =>
          rw [print, bind_eq_ok_iff, isWritable_list, depth, Nat.add_le_add_iff_right, literal]
          simp only [printItems_eq_ok_iff fun item hitem => ih item hitem levels]
          constructor
          · rintro ⟨_, ⟨hall, hdepths, rfl⟩, heq⟩
            exact ⟨hall, hdepths, (Except.ok.inj heq).symm⟩
          · rintro ⟨hall, hdepths, rfl⟩
            exact ⟨_, ⟨hall, hdepths, rfl⟩, rfl⟩
  | record fields ih =>
      intro text
      cases levels with
      | zero => simp [print, depth]
      | succ levels =>
          rw [print, bind_eq_ok_iff, isWritable_record, depth, Nat.add_le_add_iff_right, literal]
          simp only [printFields_eq_ok_iff fun field hfield => ih field hfield levels]
          constructor
          · rintro ⟨_, ⟨hall, hdepths, rfl⟩, heq⟩
            exact ⟨hall, hdepths, (Except.ok.inj heq).symm⟩
          · rintro ⟨hall, hdepths, rfl⟩
            exact ⟨_, ⟨hall, hdepths, rfl⟩, rfl⟩

end SparseWeights.Value
