import SparseWeights.Proofs.Data.Json.Writing

/-!
Reading back what is written. The text of a value without moments of time that
is not too deep for the writer is complete, and it is read as that value by every
reader that follows lists and records as deep as they lie in it.
-/

namespace SparseWeights.Json

variable {deepest : ℕ}

/-- What a reader makes of something so deep that it reads. -/
def within {α : Type} (deep levels : ℕ) (a : α) : Except Fault α :=
  if deep ≤ levels then .ok a else .error .tooDeep

section Within

variable {α β : Type} {deep levels : ℕ}

theorem within_zero (levels : ℕ) (a : α) : within 0 levels a = .ok a := if_pos (Nat.zero_le levels)

theorem within_succ (deep levels : ℕ) (a : α) :
    within (deep + 1) (levels + 1) a = within deep levels a := by
  simp only [within, Nat.add_le_add_iff_right]

theorem map_within (f : α → β) (deep levels : ℕ) (a : α) :
    (within deep levels a).map f = within deep levels (f a) := by
  rw [within, within]
  split <;> rfl

theorem within_bind {deeper : ℕ} {a : α} {b : β} {next : α → Except Fault β}
    (h : next a = within deeper levels b) :
    (within deep levels a >>= next) = within (max deep deeper) levels b := by
  by_cases hdeep : deep ≤ levels
  · rw [within, if_pos hdeep]
    change next a = _
    rw [h]
    simp only [within, max_le_iff, hdeep, true_and]
  · have hmax : ¬ max deep deeper ≤ levels := fun hmax => hdeep (le_of_max_le_left hmax)
    rw [within, within, if_neg hdeep, if_neg hmax]
    rfl

theorem within_bind_ok {a : α} {b : β} {next : α → Except Fault β} (h : next a = .ok b) :
    (within deep levels a >>= next) = within deep levels b := by
  rw [within_bind (h.trans (within_zero levels b).symm), Nat.max_zero]

end Within

/-- A value is read from its text, whatever ends it, if there are as many steps as characters. -/
def Reads (deepest level : ℕ) (v : Value) : Prop :=
  ∀ (fuel levels : ℕ) (rest : List Char), (writeValue deepest level v).text.toList.length ≤ fuel →
    Ends rest → valueAt fuel levels ((writeValue deepest level v).text.toList ++ rest) =
      within v.depth levels (v, rest)

theorem valueAt_list {fuel levels : ℕ} {rest : List Char}
    (h : ∀ tail, skipSpace rest ≠ ']' :: tail) :
    valueAt (fuel + 1) (levels + 1) ('[' :: rest) =
      (itemsAt fuel levels (skipSpace rest)).map fun found => (.list found.1, found.2) := by
  rw [valueAt]
  split
  next tail heq => exact absurd heq (h tail)
  next => rfl

theorem valueAt_record {fuel levels : ℕ} {rest : List Char}
    (h : ∀ tail, skipSpace rest ≠ '\x7d' :: tail) :
    valueAt (fuel + 1) (levels + 1) ('\x7b' :: rest) =
      (fieldsAt fuel levels (skipSpace rest)).map fun found =>
        (.record (Fields.ofList found.1), found.2) := by
  rw [valueAt]
  split
  next tail heq => exact absurd heq (h tail)
  next => rfl

/-- One item before the closing bracket. -/
theorem itemsAt_last {fuel levels deep : ℕ} {cs rest tail : List Char} {item : Value}
    (hitem : valueAt fuel levels cs = within deep levels (item, rest))
    (hrest : skipSpace rest = ']' :: tail) :
    itemsAt (fuel + 1) levels cs = within deep levels ([item], tail) := by
  rw [itemsAt, hitem]
  apply within_bind_ok
  simp only [hrest]
  rfl

/-- One item before a comma, and the others. -/
theorem itemsAt_next {fuel levels deep deeper : ℕ} {cs rest more tail : List Char} {item : Value}
    {items : List Value} (hitem : valueAt fuel levels cs = within deep levels (item, rest))
    (hrest : skipSpace rest = ',' :: more)
    (hitems : itemsAt fuel levels (skipSpace more) = within deeper levels (items, tail)) :
    itemsAt (fuel + 1) levels cs = within (max deep deeper) levels (item :: items, tail) := by
  rw [itemsAt, hitem]
  apply within_bind
  simp only [hrest, hitems]
  exact within_bind_ok rfl

/-- One field before the closing brace. -/
theorem fieldsAt_last {fuel levels deep : ℕ} {name : String} {cs between rest tail : List Char}
    {value : Value} (hname : string cs = .ok (name, ':' :: between))
    (hvalue : valueAt fuel levels (skipSpace between) = within deep levels (value, rest))
    (hrest : skipSpace rest = '\x7d' :: tail) :
    fieldsAt (fuel + 1) levels ('\x22' :: cs) = within deep levels ([(name, value)], tail) := by
  rw [fieldsAt, hname, ← Nat.max_zero deep]
  change (valueAt fuel levels (skipSpace between) >>= _) = _
  rw [hvalue]
  apply within_bind
  simp only [hrest, within_zero]
  rfl

/-- One field before a comma, and the others. -/
theorem fieldsAt_next {fuel levels deep deeper : ℕ} {name : String}
    {cs between rest more tail : List Char} {value : Value} {fields : Fields}
    (hname : string cs = .ok (name, ':' :: between))
    (hvalue : valueAt fuel levels (skipSpace between) = within deep levels (value, rest))
    (hrest : skipSpace rest = ',' :: more)
    (hfields : fieldsAt fuel levels (skipSpace more) = within deeper levels (fields, tail)) :
    fieldsAt (fuel + 1) levels ('\x22' :: cs) =
      within (max deep deeper) levels ((name, value) :: fields, tail) := by
  rw [fieldsAt, hname]
  change (valueAt fuel levels (skipSpace between) >>= _) = _
  rw [hvalue]
  apply within_bind
  simp only [hrest, hfields]
  exact within_bind_ok rfl

/-- A value in a list or a record is followed by a comma or by a new line. -/
def Follows (cs : List Char) : Prop := ∃ c tail, cs = c :: tail ∧ (c = ',' ∨ c = '\n')

theorem Follows.ends {cs : List Char} (h : Follows cs) (tail : List Char) : Ends (cs ++ tail) := by
  obtain ⟨c, more, rfl, hc⟩ := h
  rintro _ ⟨⟩
  exact hc

theorem follows_closing (level : ℕ) (bracket : String) :
    Follows (newline level ++ bracket).toList := by
  rw [newline, String.append_assoc, String.toList_append]
  exact ⟨'\n', _, rfl, .inr rfl⟩

theorem follows_writeItems (level closed : ℕ) (bracket : String) (items : List Value) :
    Follows
      ((writeItems deepest level items).andThen (.of (newline closed ++ bracket))).text.toList := by
  cases items with
  | nil =>
      rw [writeItems, text_of_andThen, String.empty_append]
      exact follows_closing closed bracket
  | cons item rest =>
      rw [writeItems_cons, text_of_andThen, String.append_assoc, String.toList_append]
      exact ⟨',', _, rfl, .inl rfl⟩

theorem follows_writeFields (level closed : ℕ) (bracket : String) (fields : Fields) :
    Follows
      ((writeFields deepest level fields).andThen (.of (newline closed ++ bracket))).text.toList := by
  cases fields with
  | nil =>
      rw [writeFields, text_of_andThen, String.empty_append]
      exact follows_closing closed bracket
  | cons field rest =>
      simp only [writeFields_cons, text_of_andThen, String.append_assoc, String.toList_append]
      exact ⟨',', _, rfl, .inl rfl⟩

theorem skipSpace_closing (level : ℕ) {c : Char} (hc : isSpace c = false) (tail : List Char) :
    skipSpace ((newline level ++ String.ofList [c]).toList ++ tail) = c :: tail := by
  rw [String.toList_append, String.toList_ofList, List.append_assoc, skipSpace_newline]
  exact skipSpace_of_head (by rintro _ ⟨⟩; exact hc)

/-- A value that can be read is read in front of what is written next. -/
theorem Reads.before {level : ℕ} {v : Value} (hread : Reads deepest level v)
    (hv : halts deepest level v = false) {second : Written}
    (hsecond : Follows second.text.toList) {fuel : ℕ} (levels : ℕ)
    (tail : List Char)
    (hfuel : ((writeValue deepest level v).andThen second).text.toList.length ≤ fuel) :
    ∃ steps, fuel = steps + 1 ∧ second.text.toList.length ≤ steps ∧
      valueAt steps levels (((writeValue deepest level v).andThen second).text.toList ++ tail) =
        within v.depth levels (v, second.text.toList ++ tail) := by
  obtain ⟨c, cs, hstart, -⟩ := starts_writeValue hv
  rw [Written.text_andThen (complete_of_not_halts hv), String.toList_append] at hfuel ⊢
  rw [List.length_append] at hfuel
  have hvalue : 0 < (writeValue deepest level v).text.toList.length := by
    rw [hstart]
    exact Nat.succ_pos cs.length
  have hmore : 0 < second.text.toList.length := by
    obtain ⟨d, more, hd, -⟩ := hsecond
    rw [hd]
    exact Nat.succ_pos more.length
  refine ⟨fuel - 1, by omega, by omega, ?_⟩
  rw [List.append_assoc]
  exact hread _ levels _ (by omega) (hsecond.ends tail)

/-- Behind an item comes a comma, a new line and the next item. -/
theorem skipSpace_writeItems (level : ℕ) (closing : String) (item : Value) (rest : List Value)
    (tail : List Char) :
    skipSpace (((writeItems deepest level (item :: rest)).andThen (.of closing)).text.toList ++ tail) =
      ',' :: ((newline level).toList ++
        ((itemsFrom deepest level closing item rest).text.toList ++ tail)) := by
  simp only [writeItems_cons, text_of_andThen, String.toList_append, List.append_assoc]
  exact skipSpace_of_head (by rintro _ ⟨⟩; rfl)

/-- Behind a field comes a comma, a new line, and the name and the value of the next field. -/
theorem skipSpace_writeFields (level : ℕ) (closing : String) (field : String × Value)
    (rest : Fields) (tail : List Char) :
    skipSpace
        (((writeFields deepest level (field :: rest)).andThen (.of closing)).text.toList ++ tail) =
      ',' :: ((newline level).toList ++ ((stringText field.1).toList ++
        ':' :: ' ' :: ((fieldsFrom deepest level closing field.2 rest).text.toList ++ tail))) := by
  simp only [writeFields_cons, text_of_andThen, String.toList_append, List.append_assoc]
  exact skipSpace_of_head (by rintro _ ⟨⟩; rfl)

theorem itemsAt_itemsFrom {level closed levels : ℕ} {item : Value} {rest : List Value}
    (hreads : ∀ v ∈ item :: rest, Reads deepest level v)
    (hwhole : ∀ v ∈ item :: rest, halts deepest level v = false) {fuel : ℕ} (tail : List Char)
    (hfuel : (itemsFrom deepest level (newline closed ++ "]") item rest).text.toList.length ≤ fuel) :
    itemsAt fuel levels
        ((itemsFrom deepest level (newline closed ++ "]") item rest).text.toList ++ tail) =
      within (Value.depths (item :: rest)) levels (item :: rest, tail) := by
  induction rest generalizing item fuel with
  | nil =>
      obtain ⟨steps, rfl, -, hitem⟩ := (hreads item List.mem_cons_self).before
        (hwhole item List.mem_cons_self) (follows_writeItems level closed "]" []) levels tail hfuel
      rw [Value.depths, Value.depths, Nat.max_zero]
      refine itemsAt_last hitem ?_
      rw [writeItems, text_of_andThen, String.empty_append]
      exact skipSpace_closing closed rfl tail
  | cons next rest ih =>
      obtain ⟨hread, hreads⟩ := List.forall_mem_cons.mp hreads
      obtain ⟨hitem, hwhole⟩ := List.forall_mem_cons.mp hwhole
      obtain ⟨steps, rfl, hsteps, hitem⟩ := hread.before hitem
        (follows_writeItems level closed "]" (next :: rest)) levels tail hfuel
      rw [writeItems_cons, text_of_andThen] at hsteps
      rw [Value.depths]
      refine itemsAt_next hitem (skipSpace_writeItems level _ next rest tail) ?_
      have hstart := starts_itemsFrom (hwhole next List.mem_cons_self) (newline closed ++ "]") rest
      rw [skipSpace_newline, (hstart.append tail).skipSpace_eq]
      refine ih hreads hwhole (le_trans ?_ hsteps)
      rw [String.toList_append, List.length_append]
      exact Nat.le_add_left _ _

/-- In front of a field stands its name. -/
theorem skipSpace_stringText (s : String) (tail : List Char) :
    skipSpace ((stringText s).toList ++ tail) = (stringText s).toList ++ tail := by
  rw [stringText, String.toList_ofList]
  exact skipSpace_of_head (by rintro _ ⟨⟩; rfl)

theorem fieldsAt_fieldsFrom {level closed levels : ℕ} {field : String × Value} {rest : Fields}
    (hreads : ∀ other ∈ field :: rest, Reads deepest level other.2)
    (hwhole : ∀ other ∈ field :: rest, halts deepest level other.2 = false) {fuel : ℕ}
    (tail : List Char) (hfuel :
      (fieldsFrom deepest level (newline closed ++ "\x7d") field.2 rest).text.toList.length ≤ fuel) :
    fieldsAt fuel levels ((stringText field.1).toList ++ ':' :: ' ' ::
        ((fieldsFrom deepest level (newline closed ++ "\x7d") field.2 rest).text.toList ++ tail)) =
      within (Value.depthFields (field :: rest)) levels (field :: rest, tail) := by
  induction rest generalizing field fuel with
  | nil =>
      have hfield := hwhole field List.mem_cons_self
      obtain ⟨steps, rfl, -, hvalue⟩ := (hreads field List.mem_cons_self).before hfield
        (follows_writeFields level closed "\x7d" []) levels tail hfuel
      have hstart := (starts_fieldsFrom hfield (newline closed ++ "\x7d") []).append tail
      obtain ⟨cs, hcs, hname⟩ := string_stringText field.1 _
      rw [hcs, Value.depthFields, Value.depthFields, Nat.max_zero]
      refine fieldsAt_last hname ((congrArg _ hstart.skipSpace_eq).trans hvalue) ?_
      rw [writeFields, text_of_andThen, String.empty_append]
      exact skipSpace_closing closed rfl tail
  | cons next rest ih =>
      obtain ⟨hread, hreads⟩ := List.forall_mem_cons.mp hreads
      obtain ⟨hfield, hwhole⟩ := List.forall_mem_cons.mp hwhole
      obtain ⟨steps, rfl, hsteps, hvalue⟩ := hread.before hfield
        (follows_writeFields level closed "\x7d" (next :: rest)) levels tail hfuel
      rw [writeFields_cons, text_of_andThen] at hsteps
      have hstart :=
        (starts_fieldsFrom hfield (newline closed ++ "\x7d") (next :: rest)).append tail
      obtain ⟨cs, hcs, hname⟩ := string_stringText field.1 _
      rw [hcs, Value.depthFields]
      refine fieldsAt_next hname ((congrArg _ hstart.skipSpace_eq).trans hvalue)
        (skipSpace_writeFields level _ next rest tail) ?_
      rw [skipSpace_newline, skipSpace_stringText]
      refine ih hreads hwhole (le_trans ?_ hsteps)
      rw [String.toList_append, List.length_append]
      exact Nat.le_add_left _ _

theorem valueAt_stringText (s : String) (fuel levels : ℕ) (rest : List Char) :
    valueAt (fuel + 1) levels ((stringText s).toList ++ rest) = .ok (.text s, rest) := by
  obtain ⟨cs, hcs, hread⟩ := string_stringText s rest
  rw [hcs, valueAt, hread]
  rfl

theorem reads_of_flat {level : ℕ} {v : Value} (hflat : v.depth = 0) (hmoment : v.hasMoment = false)
    (hread : ∀ fuel levels rest, Ends rest →
      valueAt (fuel + 1) levels ((writeValue deepest level v).text.toList ++ rest) = .ok (v, rest)) :
    Reads deepest level v := by
  intro fuel levels rest hfuel hends
  have hwhole : halts deepest level v = false := (halts_of_flat hflat).trans hmoment
  obtain ⟨c, tail, hstart, -⟩ := starts_writeValue hwhole
  have hpos : 0 < fuel := by
    rw [hstart] at hfuel
    exact lt_of_lt_of_le (Nat.succ_pos tail.length) hfuel
  obtain ⟨steps, rfl⟩ := Nat.exists_eq_add_of_lt hpos
  rw [zero_add, hread steps levels rest hends, hflat, within_zero]

theorem reads_list {level : ℕ} {items : List Value} (hlevel : level < deepest)
    (hreads : ∀ v ∈ items, Reads deepest (level + 1) v)
    (hwhole : ∀ v ∈ items, halts deepest (level + 1) v = false) :
    Reads deepest level (.list items) := by
  intro fuel levels rest hfuel hends
  cases items with
  | nil =>
      rw [writeValue, if_pos hlevel] at hfuel ⊢
      obtain ⟨steps, rfl⟩ := Nat.exists_eq_add_of_lt (lt_of_lt_of_le Nat.zero_lt_two hfuel)
      cases levels <;> rfl
  | cons item more =>
      rw [toList_writeValue_list hlevel] at hfuel ⊢
      rw [List.length_cons, List.length_append] at hfuel
      obtain ⟨steps, rfl⟩ : ∃ steps, fuel = steps + 1 := ⟨fuel - 1, by omega⟩
      rw [Value.depth, List.cons_append, List.append_assoc]
      cases levels with
      | zero => rfl
      | succ levels =>
          have hstart := (starts_itemsFrom (hwhole item List.mem_cons_self) (newline level ++ "]")
            more).append rest
          have hskip := (skipSpace_newline (level + 1) _).trans hstart.skipSpace_eq
          obtain ⟨c, tail, hc, -, hbracket⟩ := hstart
          rw [valueAt_list, hskip, itemsAt_itemsFrom hreads hwhole rest (by omega), map_within,
            within_succ]
          intro more hmore
          rw [hskip, hc] at hmore
          exact hbracket (List.cons_eq_cons.mp hmore).1

theorem reads_record {level : ℕ} {fields : Fields} (hlevel : level < deepest)
    (hreads : ∀ field ∈ fields, Reads deepest (level + 1) field.2)
    (hwhole : ∀ field ∈ fields, halts deepest (level + 1) field.2 = false)
    (hnames : (fields.map (·.1)).Nodup) : Reads deepest level (.record fields) := by
  intro fuel levels rest hfuel hends
  cases fields with
  | nil =>
      rw [writeValue, if_pos hlevel] at hfuel ⊢
      obtain ⟨steps, rfl⟩ := Nat.exists_eq_add_of_lt (lt_of_lt_of_le Nat.zero_lt_two hfuel)
      cases levels <;> rfl
  | cons field more =>
      rw [toList_writeValue_record hlevel] at hfuel ⊢
      simp only [List.length_cons, List.length_append] at hfuel
      obtain ⟨steps, rfl⟩ : ∃ steps, fuel = steps + 1 := ⟨fuel - 1, by omega⟩
      simp only [Value.depth, List.cons_append, List.append_assoc]
      cases levels with
      | zero => rfl
      | succ levels =>
          have hskip := (skipSpace_newline (level + 1) _).trans (skipSpace_stringText field.1
            (':' :: ' ' :: ((fieldsFrom deepest (level + 1) (newline level ++ "\x7d") field.2
              more).text.toList ++ rest)))
          rw [valueAt_record, hskip, fieldsAt_fieldsFrom hreads hwhole rest (by omega), map_within,
            within_succ, Fields.ofList_of_nodup hnames]
          intro tail htail
          rw [hskip, stringText, String.toList_ofList] at htail
          cases htail

/-- A value that is written to its end is read from its text. -/
theorem reads_writeValue {v : Value} {level : ℕ} (hv : halts deepest level v = false)
    (hwritable : v.isWritable = true) (hnamed : v.WellNamed) : Reads deepest level v := by
  induction v using Value.byParts generalizing level with
  | null =>
      refine reads_of_flat rfl rfl fun fuel levels rest _ => ?_
      rw [writeValue]
      exact valueAt_word (by simp [words, Written.of]) fuel levels rest
  | bool b =>
      refine reads_of_flat rfl rfl fun fuel levels rest _ => ?_
      rw [writeValue]
      cases b with
      | true => exact valueAt_word (by simp [words, Written.of]) fuel levels rest
      | false => exact valueAt_word (by simp [words, Written.of]) fuel levels rest
  | int n =>
      refine reads_of_flat rfl rfl fun fuel levels rest hends => ?_
      rw [Value.isWritable, decide_eq_true_iff] at hwritable
      rw [writeValue]
      exact valueAt_of_number (number_intText hwritable hends) fuel levels
  | float x =>
      refine reads_of_flat rfl rfl fun fuel levels rest hends => ?_
      rw [writeValue]
      exact valueAt_floatText fuel levels hends
  | text s =>
      refine reads_of_flat rfl rfl fun fuel levels rest _ => ?_
      rw [writeValue]
      exact valueAt_stringText s fuel levels rest
  | moment m => cases hv
  | list items ih =>
      obtain ⟨hlevel, hwhole⟩ := halts_list_eq_false_iff.mp hv
      rw [Value.isWritable_list, List.all_eq_true] at hwritable
      rw [Value.wellNamed_list] at hnamed
      exact reads_list hlevel (fun v hv => ih v hv (hwhole v hv) (hwritable v hv) (hnamed v hv))
        hwhole
  | record fields ih =>
      obtain ⟨hlevel, hwhole⟩ := halts_record_eq_false_iff.mp hv
      rw [Value.isWritable_record, List.all_eq_true] at hwritable
      obtain ⟨hnames, hnamed⟩ := Value.wellNamed_record.mp hnamed
      exact reads_record hlevel (fun field hfield => ih field hfield (hwhole field hfield)
        (hwritable field hfield) (hnamed field hfield)) hwhole hnames

/-- A value without moments that is not too deep for the writer is written to its end, and its text is
read as the value by a reader that goes deep enough, while any other reader finds it too deep. -/
theorem readWithin_writeWithin {v : Value} (hfree : v.hasMoment = false)
    (hdepth : v.depth ≤ deepest) (hwritable : v.isWritable = true) (hnamed : v.WellNamed)
    (levels : ℕ) :
    (writeWithin deepest v).stop? = none ∧
      readWithin levels (writeWithin deepest v).text = within v.depth levels v := by
  have hv : halts deepest 0 v = false :=
    halts_eq_false_iff.mpr ⟨hfree, fun _ => by rwa [zero_add]⟩
  refine ⟨Option.isNone_iff_eq_none.mp (complete_of_not_halts hv), ?_⟩
  have hread := reads_writeValue hv hwritable hnamed
    (2 * (writeValue deepest 0 v).text.toList.length + 2) levels [] (by omega) ends_nil
  rw [List.append_nil] at hread
  rw [readWithin, writeWithin, (starts_writeValue hv).skipSpace_eq]
  change (valueAt _ levels _ >>= _) = _
  rw [hread]
  exact within_bind_ok rfl

end SparseWeights.Json
