import Mathlib.Tactic
import SparseWeights.Data.Value

/-!
The parts of values. A list has its items for parts and a record its values, and
a value is as deep as lists and records lie in each other. In a well-named value
no record, at any depth, holds two fields of one name.
-/

namespace SparseWeights

namespace Value

/-- A property of all values holds if it goes from the parts of a value to the value. -/
@[elab_as_elim]
theorem byParts {motive : Value → Prop} (null : motive .null) (bool : ∀ b, motive (.bool b))
    (int : ∀ n, motive (.int n)) (float : ∀ x, motive (.float x)) (text : ∀ s, motive (.text s))
    (list : ∀ items, (∀ item ∈ items, motive item) → motive (.list items))
    (record : ∀ fields : Fields, (∀ field ∈ fields, motive field.2) → motive (.record fields))
    (moment : ∀ m, motive (.moment m)) (v : Value) : motive v :=
  @Value.rec motive (fun items => ∀ item ∈ items, motive item)
    (fun fields => ∀ field ∈ fields, motive field.2) (fun field => motive field.2)
    null bool int float text list record moment
    (List.forall_mem_nil _) (fun _ _ hitem hrest => List.forall_mem_cons.mpr ⟨hitem, hrest⟩)
    (List.forall_mem_nil _) (fun _ _ hfield hrest => List.forall_mem_cons.mpr ⟨hfield, hrest⟩)
    (fun _ _ hvalue => hvalue) v

/-- The names of the fields of a record. -/
def names : Value → List String
  | .record fields => fields.map (·.1)
  | _ => []

/-- The values directly in a list or a record. -/
def parts : Value → List Value
  | .list items => items
  | .record fields => fields.map (·.2)
  | _ => []

/-- Whether no record names a field twice. -/
inductive WellNamed : Value → Prop
  | intro {v : Value} (names : v.names.Nodup) (parts : ∀ part ∈ v.parts, WellNamed part) : WellNamed v

mutual

/-- Whether a moment of time is anywhere in a value. -/
def hasMoment : Value → Bool
  | .moment _ => true
  | .list items => haveMoment items
  | .record fields => haveMomentFields fields
  | _ => false

def haveMoment : List Value → Bool
  | [] => false
  | item :: rest => hasMoment item || haveMoment rest

def haveMomentFields : List (String × Value) → Bool
  | [] => false
  | (_, value) :: rest => hasMoment value || haveMomentFields rest

end

mutual

/-- Whether all whole numbers in a value have a notation: those of too many digits have none. -/
def isWritable : Value → Bool
  | .int n => n.natAbs < Decimal.pow10 Decimal.maxDigits
  | .list items => areWritable items
  | .record fields => areWritableFields fields
  | _ => true

def areWritable : List Value → Bool
  | [] => true
  | item :: rest => isWritable item && areWritable rest

def areWritableFields : List (String × Value) → Bool
  | [] => true
  | (_, value) :: rest => isWritable value && areWritableFields rest

end

mutual

/-- How deep lists and records lie in each other. -/
def depth : Value → ℕ
  | .list items => depths items + 1
  | .record fields => depthFields fields + 1
  | _ => 0

def depths : List Value → ℕ
  | [] => 0
  | item :: rest => max (depth item) (depths rest)

def depthFields : List (String × Value) → ℕ
  | [] => 0
  | (_, value) :: rest => max (depth value) (depthFields rest)

end

@[simp]
theorem hasMoment_list (items : List Value) : (list items).hasMoment = items.any hasMoment := by
  rw [hasMoment]
  induction items with
  | nil => rfl
  | cons item rest ih => rw [haveMoment, ih, List.any_cons]

@[simp]
theorem hasMoment_record (fields : Fields) :
    (record fields).hasMoment = fields.any fun field => field.2.hasMoment := by
  rw [hasMoment]
  induction fields with
  | nil => rfl
  | cons field rest ih => rw [haveMomentFields, ih, List.any_cons]

theorem hasMoment_list_eq_false {items : List Value} :
    (list items).hasMoment = false ↔ ∀ item ∈ items, item.hasMoment = false := by
  simp

theorem hasMoment_record_eq_false {fields : Fields} :
    (record fields).hasMoment = false ↔ ∀ field ∈ fields, field.2.hasMoment = false := by
  simp

@[simp]
theorem isWritable_list (items : List Value) : (list items).isWritable = items.all isWritable := by
  rw [isWritable]
  induction items with
  | nil => rfl
  | cons item rest ih => rw [areWritable, ih, List.all_cons]

@[simp]
theorem isWritable_record (fields : Fields) :
    (record fields).isWritable = fields.all fun field => field.2.isWritable := by
  rw [isWritable]
  induction fields with
  | nil => rfl
  | cons field rest ih => rw [areWritableFields, ih, List.all_cons]

theorem depths_of_flat {items : List Value} (h : ∀ item ∈ items, item.depth = 0) :
    depths items = 0 := by
  induction items with
  | nil => rfl
  | cons item rest ih =>
      obtain ⟨hitem, hrest⟩ := List.forall_mem_cons.mp h
      rw [depths, hitem, ih hrest, Nat.max_zero]

theorem depths_le_iff {items : List Value} {levels : ℕ} :
    depths items ≤ levels ↔ ∀ item ∈ items, item.depth ≤ levels := by
  induction items with
  | nil => simp [depths]
  | cons item rest ih => rw [depths, max_le_iff, ih, List.forall_mem_cons]

theorem depthFields_le_iff {fields : Fields} {levels : ℕ} :
    depthFields fields ≤ levels ↔ ∀ field ∈ fields, field.2.depth ≤ levels := by
  induction fields with
  | nil => simp [depthFields]
  | cons field rest ih => rw [depthFields, max_le_iff, ih, List.forall_mem_cons]

theorem wellNamed_list {items : List Value} :
    (list items).WellNamed ↔ ∀ item ∈ items, item.WellNamed :=
  ⟨fun ⟨_, hparts⟩ => hparts, fun hparts => ⟨List.nodup_nil, hparts⟩⟩

theorem wellNamed_record {fields : Fields} :
    (record fields).WellNamed ↔
      (fields.map (·.1)).Nodup ∧ ∀ field ∈ fields, field.2.WellNamed :=
  ⟨fun ⟨hnames, hparts⟩ => ⟨hnames, List.forall_mem_map.mp hparts⟩,
    fun ⟨hnames, hparts⟩ => ⟨hnames, List.forall_mem_map.mpr hparts⟩⟩

/-- A value without parts is well-named. -/
theorem wellNamed_of_parts_eq_nil {v : Value} (hnames : v.names = []) (hparts : v.parts = []) :
    v.WellNamed :=
  ⟨hnames ▸ List.nodup_nil, fun _ hpart => absurd (hparts ▸ hpart) List.not_mem_nil⟩

end Value

end SparseWeights
