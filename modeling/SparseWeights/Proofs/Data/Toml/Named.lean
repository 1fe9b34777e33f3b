import SparseWeights.Data.Toml.Reader
import SparseWeights.Proofs.Data.Parts
import SparseWeights.Proofs.Data.Value
import SparseWeights.Proofs.Error

/-!
What TOML can spell. No table holds two keys of one name: a key is only defined
where it is not there yet, and every change of a table on the way to another one
is a change of the value under a name that stays.
-/

namespace SparseWeights.Toml

/-- A table without two keys of one name, at any depth. -/
def NamedTable (table : Fields) : Prop := (Value.record table).WellNamed

theorem named_nil : NamedTable [] := Value.wellNamed_of_parts_eq_nil rfl rfl

theorem NamedTable.put {table : Fields} (h : NamedTable table) (name : String) {value : Value}
    (hvalue : value.WellNamed) : NamedTable (table.put name value) := by
  obtain ⟨hnames, hfields⟩ := Value.wellNamed_record.mp h
  refine Value.wellNamed_record.mpr ⟨Fields.nodup_put hnames name value, fun field hfield => ?_⟩
  rcases Fields.mem_put hfield with rfl | hfield
  · exact hvalue
  · exact hfields field hfield

theorem NamedTable.get {table : Fields} (h : NamedTable table) {name : String} {value : Value}
    (hvalue : table.get? name = some value) : value.WellNamed := by
  obtain ⟨field, hfound, rfl⟩ := Option.map_eq_some_iff.mp hvalue
  exact (Value.wellNamed_record.mp h).2 field (List.mem_of_find?_eq_some hfound)

/-- Changes that do not double a name. -/
def KeepsNames (change : Fields → Option Fields) : Prop :=
  ∀ table changed, NamedTable table → change table = some changed → NamedTable changed

theorem KeepsNames.changeAt? {change : Fields → Option Fields} (hchange : KeepsNames change)
    (enterLists : Bool) (path : Path) : KeepsNames (changeAt? enterLists change path) := by
  induction path with
  | nil => exact hchange
  | cons name path ih =>
      intro table changed htable h
      rw [Toml.changeAt?] at h
      split at h
      next =>
        obtain ⟨inner, hinner, rfl⟩ := Option.map_eq_some_iff.mp h
        exact htable.put name (ih _ _ named_nil hinner)
      next record hrecord =>
        obtain ⟨inner, hinner, rfl⟩ := Option.map_eq_some_iff.mp h
        exact htable.put name (ih _ _ (htable.get hrecord) hinner)
      next items hitems =>
        split at h
        next last hlast =>
          have hnamed := Value.wellNamed_list.mp (htable.get hitems)
          obtain ⟨inner, hinner, rfl⟩ := Option.map_eq_some_iff.mp h
          refine htable.put name (Value.wellNamed_list.mpr fun item hitem => ?_)
          rcases List.mem_append.mp hitem with hitem | hitem
          · exact hnamed item (List.mem_of_mem_dropLast hitem)
          · obtain rfl := List.mem_singleton.mp hitem
            exact ih _ _ (hnamed _ (List.mem_of_getLast? hlast)) hinner
        next => cases h
      next => cases h

theorem keepsNames_define? (name : String) {value : Value} (hvalue : value.WellNamed) :
    KeepsNames (define? name value) := by
  intro table changed htable h
  rw [define?] at h
  split at h
  · cases h
  · cases h
    exact htable.put name hvalue

theorem keepsNames_appendTable? (name : String) : KeepsNames (appendTable? name) := by
  intro table changed htable h
  rw [appendTable?] at h
  split at h
  next =>
    cases h
    exact htable.put name (Value.wellNamed_list.mpr (List.forall_mem_singleton.mpr named_nil))
  next items hitems =>
    cases h
    have hnamed := Value.wellNamed_list.mp (htable.get hitems)
    refine htable.put name (Value.wellNamed_list.mpr fun item hitem => ?_)
    rcases List.mem_append.mp hitem with hitem | hitem
    · exact hnamed item hitem
    · obtain rfl := List.mem_singleton.mp hitem
      exact named_nil
  next => cases h

theorem keepsNames_some : KeepsNames some := by
  rintro table _ htable ⟨⟩
  exact htable

theorem named_of_wordOf? {table : List (List Char × Value)}
    (htable : ∀ entry ∈ table, entry.2.WellNamed) {cs rest : List Char} {value : Value}
    (h : wordOf? table cs = some (value, rest)) : value.WellNamed := by
  obtain ⟨⟨word, _⟩, hmem, hfound⟩ := List.exists_of_findSome?_eq_some h
  obtain ⟨_, -, heq⟩ := Option.map_eq_some_iff.mp hfound
  obtain ⟨rfl, -⟩ := Prod.mk.inj heq
  exact htable _ hmem

theorem named_of_basedNumber? {cs rest : List Char} {value : Value}
    (h : basedNumber? cs = some (value, rest)) : value.WellNamed := by
  rw [basedNumber?.eq_def] at h
  split at h
  · obtain ⟨base, -, h⟩ := Option.bind_eq_some_iff.mp h
    obtain ⟨found, -, h⟩ := Option.bind_eq_some_iff.mp h
    cases h
    exact Value.wellNamed_of_parts_eq_nil rfl rfl
  · cases h

theorem named_of_wholeNumber {negative : Bool} {digits : List Char} {value : Value}
    (h : Json.wholeNumber negative digits = .ok value) : value.WellNamed := by
  rw [Json.wholeNumber] at h
  split at h
  · cases h
    exact Value.wellNamed_of_parts_eq_nil rfl rfl
  · cases h

theorem named_of_decimalNumber? {cs rest : List Char} {value : Value}
    (h : decimalNumber? cs = some (.ok value, rest)) : value.WellNamed := by
  rw [decimalNumber?] at h
  obtain ⟨⟨whole, behind⟩, -, h⟩ := Option.bind_eq_some_iff.mp h
  dsimp only at h
  split at h
  · obtain ⟨hvalue, -⟩ := Prod.mk.inj (Option.some.inj h)
    exact named_of_wholeNumber hvalue
  · cases h
    exact Value.wellNamed_of_parts_eq_nil rfl rfl
  · cases h
    exact Value.wellNamed_of_parts_eq_nil rfl rfl

theorem named_of_number {cs rest : List Char} {value : Value}
    (h : number cs = .ok (value, rest)) : value.WellNamed := by
  rw [number] at h
  split at h
  next found _ _ hbased =>
    cases h
    exact named_of_basedNumber? hbased
  next found behind _ hdecimal =>
    obtain ⟨value, rfl, heq⟩ := map_eq_ok_iff.mp h
    cases heq
    exact named_of_decimalNumber? hdecimal
  next hword =>
    cases hfound : wordOf? floatWords cs with
    | none =>
        rw [hfound] at h
        cases h
    | some found =>
        rw [hfound] at h
        cases h
        refine named_of_wordOf? (fun entry hentry => ?_) hfound
        fin_cases hentry <;> exact Value.wellNamed_of_parts_eq_nil rfl rfl

theorem named_of_scalar {cs rest : List Char} {value : Value}
    (h : scalar cs = .ok (value, rest)) : value.WellNamed := by
  rw [scalar] at h
  split at h
  next found _ hword =>
    cases h
    refine named_of_wordOf? (fun entry hentry => ?_) hword
    fin_cases hentry <;> exact Value.wellNamed_of_parts_eq_nil rfl rfl
  next m behind _ hmoment =>
    split at h
    · cases h
      exact Value.wellNamed_of_parts_eq_nil rfl rfl
    · cases h
  next => exact named_of_number h

theorem required_eq_ok_iff {β : Type} {found : Option β} {b : β} :
    required found = .ok b ↔ found = some b := by
  cases found with
  | none => simp [required]
  | some a => simp [required]

/-- What is read with a bound on the steps is well-named, and a table stays so. -/
structure NamedWithin (fuel : ℕ) : Prop where
  value {depth : ℕ} {cs rest : List Char} {v : Value} :
    valueAt fuel depth cs = .ok (v, rest) → v.WellNamed
  items {depth : ℕ} {cs rest : List Char} {items : List Value} :
    itemsAt fuel depth cs = .ok (items, rest) → ∀ item ∈ items, item.WellNamed
  pairs {depth : ℕ} {marks : List Mark} {table changed : Fields} {cs rest : List Char} :
    NamedTable table → pairsAt fuel depth marks table cs = .ok (changed, rest) →
      NamedTable changed

namespace NamedWithin

variable {fuel depth : ℕ} {cs rest : List Char} (h : NamedWithin fuel)

include h

theorem valueAt_succ {v : Value} (hread : valueAt (fuel + 1) depth cs = .ok (v, rest)) :
    v.WellNamed := by
  rw [valueAt.eq_def] at hread
  dsimp only at hread
  split at hread
  · obtain ⟨_, -, hread⟩ := bind_eq_ok_iff.mp hread
    cases hread
    exact Value.wellNamed_of_parts_eq_nil rfl rfl
  · obtain ⟨_, -, hread⟩ := bind_eq_ok_iff.mp hread
    cases hread
    exact Value.wellNamed_of_parts_eq_nil rfl rfl
  · obtain ⟨left, -, hread⟩ := bind_eq_ok_iff.mp hread
    obtain ⟨behind, -, hread⟩ := bind_eq_ok_iff.mp hread
    split at hread
    · cases hread
      exact Value.wellNamed_of_parts_eq_nil rfl rfl
    · obtain ⟨⟨items, tail⟩, hitems, hread⟩ := bind_eq_ok_iff.mp hread
      cases hread
      exact Value.wellNamed_list.mpr (h.items hitems)
  · obtain ⟨left, -, hread⟩ := bind_eq_ok_iff.mp hread
    split at hread
    · cases hread
      exact named_nil
    · obtain ⟨⟨table, tail⟩, hpairs, hread⟩ := bind_eq_ok_iff.mp hread
      cases hread
      exact h.pairs named_nil hpairs
  · exact named_of_scalar hread

theorem itemsAt_succ {items : List Value}
    (hread : itemsAt (fuel + 1) depth cs = .ok (items, rest)) :
    ∀ item ∈ items, item.WellNamed := by
  rw [itemsAt] at hread
  obtain ⟨⟨item, more⟩, hitem, hread⟩ := bind_eq_ok_iff.mp hread
  obtain ⟨behind, -, hread⟩ := bind_eq_ok_iff.mp hread
  dsimp only at hread
  split at hread
  · cases hread
    exact List.forall_mem_singleton.mpr (h.value hitem)
  · obtain ⟨next, -, hread⟩ := bind_eq_ok_iff.mp hread
    split at hread
    · cases hread
      exact List.forall_mem_singleton.mpr (h.value hitem)
    · obtain ⟨⟨others, tail⟩, hothers, hread⟩ := bind_eq_ok_iff.mp hread
      cases hread
      exact List.forall_mem_cons.mpr ⟨h.value hitem, h.items hothers⟩
  · cases hread

theorem pairsAt_succ {marks : List Mark} {table changed : Fields} (htable : NamedTable table)
    (hread : pairsAt (fuel + 1) depth marks table cs = .ok (changed, rest)) :
    NamedTable changed := by
  rw [pairsAt] at hread
  obtain ⟨⟨key, behind⟩, -, hread⟩ := bind_eq_ok_iff.mp hread
  obtain ⟨between, -, hread⟩ := bind_eq_ok_iff.mp hread
  obtain ⟨⟨value, more⟩, hvalue, hread⟩ := bind_eq_ok_iff.mp hread
  dsimp only at hread
  split at hread
  · cases hread
  · obtain ⟨defined, hdefined, hread⟩ := bind_eq_ok_iff.mp hread
    have hnamed := (keepsNames_define? _ (h.value hvalue)).changeAt? false _ _ _ htable
      (required_eq_ok_iff.mp hdefined)
    split at hread
    · cases hread
      exact hnamed
    · exact h.pairs hnamed hread
    · cases hread

end NamedWithin

theorem namedWithin (fuel : ℕ) : NamedWithin fuel := by
  induction fuel with
  | zero => exact ⟨nofun, nofun, nofun⟩
  | succ fuel ih => exact ⟨ih.valueAt_succ, ih.itemsAt_succ, ih.pairsAt_succ⟩

theorem Draft.pair_named {draft changed : Draft} {depth : ℕ} {cs rest : List Char}
    (hdraft : NamedTable draft.table) (h : draft.pair depth cs = .ok (changed, rest)) :
    NamedTable changed.table := by
  rw [Draft.pair] at h
  obtain ⟨⟨key, behind⟩, -, h⟩ := bind_eq_ok_iff.mp h
  obtain ⟨between, -, h⟩ := bind_eq_ok_iff.mp h
  obtain ⟨⟨value, more⟩, hread, h⟩ := bind_eq_ok_iff.mp h
  dsimp only at h
  split at h
  · cases h
  · split at h
    · cases h
    · obtain ⟨defined, hdefined, h⟩ := bind_eq_ok_iff.mp h
      cases h
      have hvalue := (namedWithin _).value hread
      exact (keepsNames_define? _ hvalue).changeAt? true _ _ _ hdraft
        (required_eq_ok_iff.mp hdefined)

theorem Draft.table?_named {draft changed : Draft} {cs rest : List Char}
    (hdraft : NamedTable draft.table) (h : draft.table? cs = some (changed, rest)) :
    NamedTable changed.table := by
  rw [Draft.table?] at h
  obtain ⟨⟨key, behind⟩, -, h⟩ := Option.bind_eq_some_iff.mp h
  dsimp only at h
  split at h
  · cases h
  · obtain ⟨opened, hopened, h⟩ := Option.bind_eq_some_iff.mp h
    obtain ⟨more, -, h⟩ := Option.bind_eq_some_iff.mp h
    cases h
    exact keepsNames_some.changeAt? true _ _ _ hdraft hopened

theorem Draft.listTable?_named {draft changed : Draft} {cs rest : List Char}
    (hdraft : NamedTable draft.table) (h : draft.listTable? cs = some (changed, rest)) :
    NamedTable changed.table := by
  rw [Draft.listTable?] at h
  obtain ⟨⟨key, behind⟩, -, h⟩ := Option.bind_eq_some_iff.mp h
  dsimp only at h
  split at h
  · cases h
  · obtain ⟨opened, hopened, h⟩ := Option.bind_eq_some_iff.mp h
    obtain ⟨one, -, h⟩ := Option.bind_eq_some_iff.mp h
    obtain ⟨more, -, h⟩ := Option.bind_eq_some_iff.mp h
    cases h
    exact (keepsNames_appendTable? _).changeAt? true _ _ _ hdraft hopened

theorem Draft.statement_named {draft changed : Draft} {depth : ℕ} {cs rest : List Char}
    (hdraft : NamedTable draft.table) (h : draft.statement depth cs = .ok (changed, rest)) :
    NamedTable changed.table := by
  rw [Draft.statement.eq_def] at h
  split at h
  · exact Draft.listTable?_named (show NamedTable draft.settle.table from hdraft) (required_eq_ok_iff.mp h)
  · exact Draft.table?_named (show NamedTable draft.settle.table from hdraft) (required_eq_ok_iff.mp h)
  · cases h
    exact hdraft
  · exact Draft.pair_named hdraft h

theorem Draft.statements_named {depth fuel : ℕ} {draft changed : Draft} {cs : List Char}
    (hdraft : NamedTable draft.table) (h : Draft.statements depth fuel draft cs = .ok changed) :
    NamedTable changed.table := by
  induction fuel generalizing draft cs with
  | zero => cases h
  | succ fuel ih =>
      rw [Draft.statements] at h
      split at h
      · cases h
        exact hdraft
      · exact ih hdraft h
      · obtain ⟨⟨next, rest⟩, hnext, h⟩ := bind_eq_ok_iff.mp h
        have hnamed := Draft.statement_named hdraft hnext
        obtain ⟨behind, -, h⟩ := bind_eq_ok_iff.mp h
        split at h
        · cases h
          exact hnamed
        · exact ih hnamed h
        · cases h

theorem named_of_readWithin {depth : ℕ} {s : String} {v : Value}
    (h : readWithin depth s = .ok v) : v.WellNamed := by
  rw [readWithin] at h
  obtain ⟨draft, hdraft, h⟩ := bind_eq_ok_iff.mp h
  cases h
  exact Draft.statements_named named_nil hdraft

end SparseWeights.Toml
