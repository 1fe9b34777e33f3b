import SparseWeights.Proofs.Data.Json.RoundTrip

/-!
What is left of a value that is not written to its end. Writing stops in front
of the first moment of time or of the first list or record that is too deep,
behind an opening bracket that nothing closes, so the text is read as no value,
however deep the reader goes.
-/

namespace SparseWeights.Json

variable {deepest : ℕ}

/-- Nothing is read from the text of a value, if there are as many steps as characters. -/
def Stops (deepest level : ℕ) (v : Value) : Prop :=
  ∀ fuel levels, (writeValue deepest level v).text.toList.length ≤ fuel →
    ∃ e, valueAt fuel levels (writeValue deepest level v).text.toList = .error e

theorem within_bind_error {α β : Type} (deep levels : ℕ) {a : α} {next : α → Except Fault β}
    (h : ∃ e, next a = .error e) : ∃ e, (within deep levels a >>= next) = .error e := by
  rw [within]
  split
  · exact h
  · exact ⟨.tooDeep, rfl⟩

theorem error_bind {α β : Type} {x : Except Fault α} (next : α → Except Fault β)
    (h : ∃ e, x = .error e) : ∃ e, (x >>= next) = .error e := by
  obtain ⟨e, rfl⟩ := h
  exact ⟨e, rfl⟩

theorem error_map {α β : Type} {x : Except Fault α} (f : α → β) (h : ∃ e, x = .error e) :
    ∃ e, x.map f = .error e := by
  obtain ⟨e, rfl⟩ := h
  exact ⟨e, rfl⟩

section Steps

variable {fuel levels deep : ℕ} {cs rest more : List Char}

theorem itemsAt_error (hitem : ∃ e, valueAt fuel levels cs = .error e) :
    ∃ e, itemsAt (fuel + 1) levels cs = .error e := by
  rw [itemsAt]
  exact error_bind _ hitem

theorem itemsAt_error_next {item : Value}
    (hitem : valueAt fuel levels cs = within deep levels (item, rest))
    (hrest : skipSpace rest = ',' :: more)
    (hitems : ∃ e, itemsAt fuel levels (skipSpace more) = .error e) :
    ∃ e, itemsAt (fuel + 1) levels cs = .error e := by
  rw [itemsAt, hitem]
  apply within_bind_error
  simp only [hrest]
  exact error_bind _ hitems

theorem fieldsAt_error {name : String} {between : List Char}
    (hname : string cs = .ok (name, ':' :: between))
    (hvalue : ∃ e, valueAt fuel levels (skipSpace between) = .error e) :
    ∃ e, fieldsAt (fuel + 1) levels ('\x22' :: cs) = .error e := by
  rw [fieldsAt, hname]
  change ∃ e, (valueAt fuel levels (skipSpace between) >>= _) = .error e
  exact error_bind _ hvalue

theorem fieldsAt_error_next {name : String} {between : List Char} {value : Value}
    (hname : string cs = .ok (name, ':' :: between))
    (hvalue : valueAt fuel levels (skipSpace between) = within deep levels (value, rest))
    (hrest : skipSpace rest = ',' :: more)
    (hfields : ∃ e, fieldsAt fuel levels (skipSpace more) = .error e) :
    ∃ e, fieldsAt (fuel + 1) levels ('\x22' :: cs) = .error e := by
  rw [fieldsAt, hname]
  change ∃ e, (valueAt fuel levels (skipSpace between) >>= _) = .error e
  rw [hvalue]
  apply within_bind_error
  simp only [hrest]
  exact error_bind _ hfields

end Steps

theorem complete_of_halts {v : Value} {level : ℕ} (hv : halts deepest level v = true) :
    (writeValue deepest level v).complete = false := by
  rw [complete_writeValue, hv, Bool.not_true]

/-- No blank and no closing bracket stands where a value is written. -/
theorem eq_nil_or_starts (deepest level : ℕ) (v : Value) (second : Written) :
    ((writeValue deepest level v).andThen second).text.toList = [] ∨
      Starts ((writeValue deepest level v).andThen second).text.toList := by
  rcases eq_stopped_or_starts deepest level v with ⟨cause, hstop⟩ | hstarts
  · left
    rw [hstop, Written.andThen_of_not_complete (Written.complete_stopped cause)]
    rfl
  · right
    cases hcomplete : (writeValue deepest level v).complete with
    | true =>
        rw [Written.text_andThen hcomplete, String.toList_append]
        exact hstarts.append second.text.toList
    | false =>
        rw [Written.andThen_of_not_complete hcomplete]
        exact hstarts

theorem skipSpace_of_eq_nil_or_starts {cs : List Char} (h : cs = [] ∨ Starts cs) :
    skipSpace cs = cs := by
  rcases h with rfl | h
  · rfl
  · exact h.skipSpace_eq

theorem skipSpace_itemsFrom (deepest level : ℕ) (closing : String) (item : Value) (rest : List Value) :
    skipSpace (itemsFrom deepest level closing item rest).text.toList =
      (itemsFrom deepest level closing item rest).text.toList :=
  skipSpace_of_eq_nil_or_starts (eq_nil_or_starts deepest level item _)

theorem skipSpace_fieldsFrom (deepest level : ℕ) (closing : String) (value : Value) (rest : Fields) :
    skipSpace (' ' :: (fieldsFrom deepest level closing value rest).text.toList) =
      (fieldsFrom deepest level closing value rest).text.toList :=
  skipSpace_of_eq_nil_or_starts (eq_nil_or_starts deepest level value _)

/-- Of a list that starts with an item that stops, there is nothing but the item. -/
theorem itemsAt_of_stops {level : ℕ} {item : Value} (hstop : Stops deepest level item)
    (hitem : halts deepest level item = true) (closing : String) (rest : List Value) {fuel : ℕ}
    (levels : ℕ)
    (hfuel : (itemsFrom deepest level closing item rest).text.toList.length < fuel) :
    ∃ e, itemsAt fuel levels (itemsFrom deepest level closing item rest).text.toList = .error e := by
  obtain ⟨steps, rfl⟩ := Nat.exists_eq_add_of_lt (Nat.zero_lt_of_lt hfuel)
  rw [itemsFrom, Written.andThen_of_not_complete (complete_of_halts hitem)] at hfuel ⊢
  exact itemsAt_error (hstop _ _ (by omega))

theorem itemsAt_truncated {level closed levels : ℕ} {item : Value} {rest : List Value}
    (hreads : ∀ v ∈ item :: rest, halts deepest level v = false → Reads deepest level v)
    (hstops : ∀ v ∈ item :: rest, halts deepest level v = true → Stops deepest level v)
    (hhalts : (item :: rest).any (halts deepest level) = true) {fuel : ℕ}
    (hfuel : (itemsFrom deepest level (newline closed ++ "]") item rest).text.toList.length < fuel) :
    ∃ e, itemsAt fuel levels (itemsFrom deepest level (newline closed ++ "]") item rest).text.toList =
      .error e := by
  induction rest generalizing item fuel with
  | nil =>
      have hitem : halts deepest level item = true := by simpa using hhalts
      exact itemsAt_of_stops (hstops item List.mem_cons_self hitem) hitem _ [] levels hfuel
  | cons next rest ih =>
      obtain ⟨hread, hreads⟩ := List.forall_mem_cons.mp hreads
      obtain ⟨hstop, hstops⟩ := List.forall_mem_cons.mp hstops
      cases hitem : halts deepest level item with
      | true => exact itemsAt_of_stops (hstop hitem) hitem _ (next :: rest) levels hfuel
      | false =>
          rw [List.any_cons, hitem, Bool.false_or] at hhalts
          obtain ⟨steps, rfl, hsteps, hvalue⟩ := (hread hitem).before hitem
            (follows_writeItems level closed "]" (next :: rest)) levels [] hfuel.le
          rw [List.append_nil] at hvalue
          refine itemsAt_error_next hvalue (skipSpace_writeItems level _ next rest []) ?_
          rw [skipSpace_newline, List.append_nil, skipSpace_itemsFrom]
          refine ih hreads hstops hhalts (lt_of_lt_of_le ?_ hsteps)
          rw [writeItems_cons, text_of_andThen, String.append_assoc, String.toList_append,
            List.length_append, String.toList_append, List.length_append]
          have : 0 < ",".toList.length := by decide
          omega

theorem fieldsAt_of_stops {level : ℕ} {field : String × Value} (hstop : Stops deepest level field.2)
    (hvalue : halts deepest level field.2 = true) (closing : String) (rest : Fields) {fuel : ℕ}
    (levels : ℕ)
    (hfuel : (fieldsFrom deepest level closing field.2 rest).text.toList.length < fuel) :
    ∃ e, fieldsAt fuel levels ((stringText field.1).toList ++ ':' :: ' ' ::
      (fieldsFrom deepest level closing field.2 rest).text.toList) = .error e := by
  obtain ⟨steps, rfl⟩ := Nat.exists_eq_add_of_lt (Nat.zero_lt_of_lt hfuel)
  obtain ⟨cs, hcs, hname⟩ := string_stringText field.1
    (':' :: ' ' :: (fieldsFrom deepest level closing field.2 rest).text.toList)
  rw [hcs]
  refine fieldsAt_error hname ?_
  rw [skipSpace_fieldsFrom]
  rw [fieldsFrom, Written.andThen_of_not_complete (complete_of_halts hvalue)] at hfuel ⊢
  exact hstop _ _ (by omega)

theorem fieldsAt_truncated {level closed levels : ℕ} {field : String × Value} {rest : Fields}
    (hreads : ∀ other ∈ field :: rest, halts deepest level other.2 = false →
      Reads deepest level other.2)
    (hstops : ∀ other ∈ field :: rest, halts deepest level other.2 = true →
      Stops deepest level other.2)
    (hhalts : (field :: rest).any (fun other => halts deepest level other.2) = true) {fuel : ℕ} (hfuel :
      (fieldsFrom deepest level (newline closed ++ "\x7d") field.2 rest).text.toList.length < fuel) :
    ∃ e, fieldsAt fuel levels ((stringText field.1).toList ++ ':' :: ' ' ::
      (fieldsFrom deepest level (newline closed ++ "\x7d") field.2 rest).text.toList) = .error e := by
  induction rest generalizing field fuel with
  | nil =>
      have hvalue : halts deepest level field.2 = true := by simpa using hhalts
      exact fieldsAt_of_stops (hstops field List.mem_cons_self hvalue) hvalue _ [] levels hfuel
  | cons next rest ih =>
      obtain ⟨hread, hreads⟩ := List.forall_mem_cons.mp hreads
      obtain ⟨hstop, hstops⟩ := List.forall_mem_cons.mp hstops
      cases hfield : halts deepest level field.2 with
      | true => exact fieldsAt_of_stops (hstop hfield) hfield _ (next :: rest) levels hfuel
      | false =>
          rw [List.any_cons, hfield, Bool.false_or] at hhalts
          obtain ⟨steps, rfl, hsteps, hvalue⟩ := (hread hfield).before hfield
            (follows_writeFields level closed "\x7d" (next :: rest)) levels [] hfuel.le
          rw [List.append_nil] at hvalue
          obtain ⟨cs, hcs, hname⟩ := string_stringText field.1 (':' :: ' ' ::
            (fieldsFrom deepest level (newline closed ++ "\x7d") field.2 (next :: rest)).text.toList)
          rw [hcs]
          refine fieldsAt_error_next hname ((congrArg _ (skipSpace_fieldsFrom ..)).trans hvalue)
            (skipSpace_writeFields level _ next rest []) ?_
          rw [skipSpace_newline, skipSpace_stringText, List.append_nil]
          refine ih hreads hstops hhalts (lt_of_lt_of_le ?_ hsteps)
          rw [writeFields_cons, text_of_andThen, String.append_assoc, String.append_assoc,
            String.toList_append, List.length_append]
          have : 0 < ",".toList.length := by decide
          simp only [String.toList_append, List.length_append]
          omega

theorem stops_list {level : ℕ} {items : List Value} (hlevel : level < deepest)
    (hreads : ∀ v ∈ items, halts deepest (level + 1) v = false → Reads deepest (level + 1) v)
    (hstops : ∀ v ∈ items, halts deepest (level + 1) v = true → Stops deepest (level + 1) v)
    (hhalts : items.any (halts deepest (level + 1)) = true) : Stops deepest level (.list items) := by
  intro fuel levels hfuel
  cases items with
  | nil => cases hhalts
  | cons item rest =>
      rw [toList_writeValue_list hlevel] at hfuel ⊢
      rw [List.length_cons, List.length_append] at hfuel
      obtain ⟨steps, rfl⟩ : ∃ steps, fuel = steps + 1 := ⟨fuel - 1, by omega⟩
      cases levels with
      | zero => exact ⟨.tooDeep, rfl⟩
      | succ levels =>
          have hline : 0 < (newline (level + 1)).toList.length := by simp [newline]
          have hskip := (skipSpace_newline (level + 1) _).trans
            (skipSpace_itemsFrom deepest (level + 1) (newline level ++ "]") item rest)
          rw [valueAt_list, hskip]
          · exact error_map _ (itemsAt_truncated hreads hstops hhalts (by omega))
          · intro tail htail
            rw [hskip] at htail
            rcases eq_nil_or_starts deepest (level + 1) item _ with hnil | ⟨c, more, hc, -, hbracket⟩
            · cases hnil.symm.trans htail
            · exact hbracket (List.cons_eq_cons.mp (hc.symm.trans htail)).1

theorem stops_record {level : ℕ} {fields : Fields} (hlevel : level < deepest)
    (hreads : ∀ field ∈ fields, halts deepest (level + 1) field.2 = false →
      Reads deepest (level + 1) field.2)
    (hstops : ∀ field ∈ fields, halts deepest (level + 1) field.2 = true →
      Stops deepest (level + 1) field.2)
    (hhalts : fields.any (fun field => halts deepest (level + 1) field.2) = true) :
    Stops deepest level (.record fields) := by
  intro fuel levels hfuel
  cases fields with
  | nil => cases hhalts
  | cons field rest =>
      rw [toList_writeValue_record hlevel] at hfuel ⊢
      simp only [List.length_cons, List.length_append] at hfuel
      obtain ⟨steps, rfl⟩ : ∃ steps, fuel = steps + 1 := ⟨fuel - 1, by omega⟩
      cases levels with
      | zero => exact ⟨.tooDeep, rfl⟩
      | succ levels =>
          have hskip := (skipSpace_newline (level + 1) _).trans (skipSpace_stringText field.1
            (':' :: ' ' :: (fieldsFrom deepest (level + 1) (newline level ++ "\x7d") field.2
              rest).text.toList))
          rw [valueAt_record, hskip]
          · exact error_map _ (fieldsAt_truncated hreads hstops hhalts (by omega))
          · intro tail htail
            rw [hskip, stringText, String.toList_ofList] at htail
            cases htail

theorem stops_of_stopped {v : Value} {level : ℕ} {cause : Fault}
    (hstop : writeValue deepest level v = .stopped cause) : Stops deepest level v := by
  intro fuel levels _
  rw [hstop]
  cases fuel <;> exact ⟨.malformedJson, by cases levels <;> rfl⟩

/-- The text of a value that is not written to its end is read as nothing. -/
theorem stops_writeValue {v : Value} {level : ℕ} (hv : halts deepest level v = true)
    (hwritable : v.isWritable = true) (hnamed : v.WellNamed) : Stops deepest level v := by
  induction v using Value.byParts generalizing level with
  | null => cases hv
  | bool b => cases hv
  | int n => cases hv
  | float x => cases hv
  | text s => cases hv
  | moment m => exact stops_of_stopped (by rw [writeValue])
  | list items ih =>
      by_cases hlevel : level < deepest
      · rw [halts_list items hlevel] at hv
        rw [Value.isWritable_list, List.all_eq_true] at hwritable
        rw [Value.wellNamed_list] at hnamed
        exact stops_list hlevel
          (fun v hv hwhole => reads_writeValue hwhole (hwritable v hv) (hnamed v hv))
          (fun v hv hstop => ih v hv hstop (hwritable v hv) (hnamed v hv)) hv
      · exact stops_of_stopped (writeValue_list_of_deep items hlevel)
  | record fields ih =>
      by_cases hlevel : level < deepest
      · rw [halts_record fields hlevel] at hv
        rw [Value.isWritable_record, List.all_eq_true] at hwritable
        obtain ⟨-, hnamed⟩ := Value.wellNamed_record.mp hnamed
        exact stops_record hlevel
          (fun field hfield hwhole => reads_writeValue hwhole (hwritable field hfield)
            (hnamed field hfield))
          (fun field hfield hstop => ih field hfield hstop (hwritable field hfield)
            (hnamed field hfield)) hv
      · exact stops_of_stopped (writeValue_record_of_deep fields hlevel)

/-- A value with a moment in it, or one too deep for the writer, is not written to its end, and what is
written of it is read as nothing. -/
theorem readWithin_truncated {v : Value} (hv : v.hasMoment = true ∨ deepest < v.depth)
    (hwritable : v.isWritable = true) (hnamed : v.WellNamed) :
    (∃ cause, (writeWithin deepest v).stop? = some cause ∧ MayStop deepest 0 v cause) ∧
      ∀ levels, ∃ e, readWithin levels (writeWithin deepest v).text = .error e := by
  have hhalts : halts deepest 0 v = true := by
    rw [halts, Bool.or_eq_true, decide_eq_true_iff]
    exact hv.imp_right fun h => by omega
  have hcomplete := complete_of_halts hhalts
  constructor
  · rw [Written.complete, Option.isNone_eq_false_iff, Option.isSome_iff_exists] at hcomplete
    obtain ⟨cause, hstop⟩ := hcomplete
    exact ⟨cause, hstop, mayStop_of_stop? hstop⟩
  · intro levels
    have hskip : skipSpace (writeValue deepest 0 v).text.toList =
        (writeValue deepest 0 v).text.toList := by
      have h := eq_nil_or_starts deepest 0 v (.of "")
      rw [Written.andThen_of_not_complete hcomplete] at h
      exact skipSpace_of_eq_nil_or_starts h
    rw [readWithin, writeWithin, hskip]
    exact error_bind _ (stops_writeValue hhalts hwritable hnamed _ levels (by omega))

end SparseWeights.Json
