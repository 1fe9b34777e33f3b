import SparseWeights.Proofs.Data.Json.Text
import SparseWeights.Proofs.Data.Json.Word
import SparseWeights.Proofs.Data.Parts
import SparseWeights.Proofs.Data.Value

/-!
What is written of a value. Writing comes to an end exactly if no moment of time
is in the value and it is no deeper than the writer goes, and it stops for one of
these. Unless it stops at once, what is written starts with neither a blank nor a
closing bracket.
-/

namespace SparseWeights.Json

namespace Written

/-- Whether nothing is missing. -/
def complete (w : Written) : Bool := w.stop?.isNone

variable {first second : Written}

theorem complete_of (text : String) : (of text).complete = true := rfl

theorem complete_stopped (cause : Fault) : (stopped cause).complete = false := rfl

theorem andThen_of_complete (h : first.complete = true) :
    first.andThen second = ⟨first.text ++ second.text, second.stop?⟩ := by
  rw [andThen, Option.isNone_iff_eq_none.mp h]

theorem andThen_of_not_complete (h : first.complete = false) : first.andThen second = first := by
  rw [andThen]
  split
  next hnone =>
    rw [complete, hnone] at h
    cases h
  next => rfl

theorem text_andThen (h : first.complete = true) :
    (first.andThen second).text = first.text ++ second.text := by
  rw [andThen_of_complete h]

theorem complete_andThen (first second : Written) :
    (first.andThen second).complete = (first.complete && second.complete) := by
  cases hfirst : first.complete with
  | false => rw [andThen_of_not_complete hfirst, hfirst, Bool.false_and]
  | true =>
      rw [andThen_of_complete hfirst, Bool.true_and]
      rfl

theorem andThen_assoc (first second third : Written) :
    (first.andThen second).andThen third = first.andThen (second.andThen third) := by
  cases hfirst : first.complete with
  | false => simp only [andThen_of_not_complete hfirst]
  | true =>
      have hboth := complete_andThen first second
      rw [hfirst, Bool.true_and] at hboth
      cases hsecond : second.complete with
      | false => rw [andThen_of_not_complete (hboth.trans hsecond), andThen_of_not_complete hsecond]
      | true =>
          rw [andThen_of_complete (hboth.trans hsecond), andThen_of_complete hsecond]
          simp only [andThen_of_complete hfirst, String.append_assoc]

theorem stop?_andThen {first second : Written} {cause : Fault}
    (h : (first.andThen second).stop? = some cause) :
    first.stop? = some cause ∨ second.stop? = some cause := by
  cases hfirst : first.complete with
  | true =>
      rw [andThen_of_complete hfirst] at h
      exact .inr h
  | false =>
      rw [andThen_of_not_complete hfirst] at h
      exact .inl h

end Written

/-- Whether writing a value at a level stops before its end: in front of a moment of time, or of a list
or a record that is too deep. -/
def halts (deepest level : ℕ) (v : Value) : Bool :=
  v.hasMoment || decide (v.depth ≠ 0 ∧ deepest < level + v.depth)

section Halting

variable {deepest level : ℕ}

theorem halts_eq_false_iff {v : Value} :
    halts deepest level v = false ↔
      v.hasMoment = false ∧ (v.depth ≠ 0 → level + v.depth ≤ deepest) := by
  rw [halts, Bool.or_eq_false_iff, decide_eq_false_iff_not, not_and, not_lt]

theorem halts_of_flat {v : Value} (hflat : v.depth = 0) : halts deepest level v = v.hasMoment := by
  simp [halts, hflat]

theorem halts_list_eq_false_iff {items : List Value} :
    halts deepest level (.list items) = false ↔
      level < deepest ∧ ∀ item ∈ items, halts deepest (level + 1) item = false := by
  have hitems := @Value.depths_le_iff items (deepest - (level + 1))
  simp only [halts_eq_false_iff, Value.hasMoment_list_eq_false, Value.depth]
  constructor
  · rintro ⟨hfree, hdepth⟩
    have hdepth := hdepth (Nat.succ_ne_zero _)
    refine ⟨by omega, fun item hitem => ⟨hfree item hitem, fun _ => ?_⟩⟩
    have := hitems.mp (by omega) item hitem
    omega
  · rintro ⟨hlevel, h⟩
    refine ⟨fun item hitem => (h item hitem).1, fun _ => ?_⟩
    have := hitems.mpr fun item hitem => by have := (h item hitem).2; omega
    omega

theorem halts_record_eq_false_iff {fields : Fields} :
    halts deepest level (.record fields) = false ↔
      level < deepest ∧ ∀ field ∈ fields, halts deepest (level + 1) field.2 = false := by
  have hfields := @Value.depthFields_le_iff fields (deepest - (level + 1))
  simp only [halts_eq_false_iff, Value.hasMoment_record_eq_false, Value.depth]
  constructor
  · rintro ⟨hfree, hdepth⟩
    have hdepth := hdepth (Nat.succ_ne_zero _)
    refine ⟨by omega, fun field hfield => ⟨hfree field hfield, fun _ => ?_⟩⟩
    have := hfields.mp (by omega) field hfield
    omega
  · rintro ⟨hlevel, h⟩
    refine ⟨fun field hfield => (h field hfield).1, fun _ => ?_⟩
    have := hfields.mpr fun field hfield => by have := (h field hfield).2; omega
    omega

theorem complete_writeItems {items : List Value}
    (hitems : ∀ item ∈ items, (writeValue deepest level item).complete = !halts deepest level item) :
    (writeItems deepest level items).complete = !items.any (halts deepest level) := by
  induction items with
  | nil => rfl
  | cons item rest ih =>
      obtain ⟨hitem, hrest⟩ := List.forall_mem_cons.mp hitems
      rw [writeItems, Written.complete_andThen, Written.complete_andThen, hitem, ih hrest,
        List.any_cons, Bool.not_or]
      rfl

theorem complete_writeFields {fields : Fields}
    (hfields : ∀ field ∈ fields,
      (writeValue deepest level field.2).complete = !halts deepest level field.2) :
    (writeFields deepest level fields).complete =
      !fields.any fun field => halts deepest level field.2 := by
  induction fields with
  | nil => rfl
  | cons field rest ih =>
      obtain ⟨hfield, hrest⟩ := List.forall_mem_cons.mp hfields
      rw [writeFields, Written.complete_andThen, Written.complete_andThen, hfield, ih hrest,
        List.any_cons, Bool.not_or]
      rfl

theorem halts_list (items : List Value) (hlevel : level < deepest) :
    halts deepest level (.list items) = items.any (halts deepest (level + 1)) := by
  rw [Bool.eq_iff_iff, ← not_iff_not, Bool.not_eq_true, Bool.not_eq_true, halts_list_eq_false_iff,
    List.any_eq_false]
  simp [hlevel]

theorem halts_record (fields : Fields) (hlevel : level < deepest) :
    halts deepest level (.record fields) =
      fields.any fun field => halts deepest (level + 1) field.2 := by
  rw [Bool.eq_iff_iff, ← not_iff_not, Bool.not_eq_true, Bool.not_eq_true, halts_record_eq_false_iff,
    List.any_eq_false]
  simp [hlevel]

theorem writeValue_list_of_deep (items : List Value) (hlevel : ¬ level < deepest) :
    writeValue deepest level (.list items) = .stopped .tooDeep := by
  cases items with
  | nil => rw [writeValue, if_neg hlevel]
  | cons item rest => rw [writeValue, if_neg hlevel]

theorem writeValue_record_of_deep (fields : Fields) (hlevel : ¬ level < deepest) :
    writeValue deepest level (.record fields) = .stopped .tooDeep := by
  cases fields with
  | nil => rw [writeValue, if_neg hlevel]
  | cons field rest => rw [writeValue, if_neg hlevel]

/-- Writing comes to an end exactly if nothing is in the way. -/
theorem complete_writeValue (v : Value) (level : ℕ) :
    (writeValue deepest level v).complete = !halts deepest level v := by
  induction v using Value.byParts generalizing level with
  | null => rw [writeValue, halts_of_flat rfl]; rfl
  | bool b => rw [writeValue, halts_of_flat rfl]; rfl
  | int n => rw [writeValue, halts_of_flat rfl]; rfl
  | float x => rw [writeValue, halts_of_flat rfl]; rfl
  | text s => rw [writeValue, halts_of_flat rfl]; rfl
  | moment m => rw [writeValue, halts_of_flat rfl]; rfl
  | list items ih =>
      by_cases hlevel : level < deepest
      · rw [halts_list items hlevel]
        cases items with
        | nil => rw [writeValue, if_pos hlevel]; rfl
        | cons item rest =>
            obtain ⟨hitem, hrest⟩ := List.forall_mem_cons.mp ih
            simp [writeValue, hlevel, Written.complete_andThen, Written.complete_of, hitem,
              complete_writeItems fun item hmem => hrest item hmem (level + 1)]
      · rw [writeValue_list_of_deep items hlevel, Written.complete_stopped, eq_comm,
          Bool.not_eq_false', ← Bool.not_eq_false, halts_list_eq_false_iff]
        exact fun h => hlevel h.1
  | record fields ih =>
      by_cases hlevel : level < deepest
      · rw [halts_record fields hlevel]
        cases fields with
        | nil => rw [writeValue, if_pos hlevel]; rfl
        | cons field rest =>
            obtain ⟨hfield, hrest⟩ := List.forall_mem_cons.mp ih
            simp [writeValue, hlevel, Written.complete_andThen, Written.complete_of, hfield,
              complete_writeFields fun field hmem => hrest field hmem (level + 1)]
      · rw [writeValue_record_of_deep fields hlevel, Written.complete_stopped, eq_comm,
          Bool.not_eq_false', ← Bool.not_eq_false, halts_record_eq_false_iff]
        exact fun h => hlevel h.1

end Halting

variable {deepest : ℕ}

/-- The items of a list from one on, and what closes the list. -/
def itemsFrom (deepest level : ℕ) (closing : String) (item : Value) (rest : List Value) : Written :=
  (writeValue deepest level item).andThen ((writeItems deepest level rest).andThen (.of closing))

/-- The fields of a record from behind the name of one, and what closes the record. -/
def fieldsFrom (deepest level : ℕ) (closing : String) (value : Value) (rest : Fields) : Written :=
  (writeValue deepest level value).andThen ((writeFields deepest level rest).andThen (.of closing))

theorem writeValue_list {level : ℕ} (hlevel : level < deepest) (item : Value) (rest : List Value) :
    writeValue deepest level (.list (item :: rest)) =
      (Written.of ("[" ++ newline (level + 1))).andThen
        (itemsFrom deepest (level + 1) (newline level ++ "]") item rest) := by
  rw [writeValue, if_pos hlevel, itemsFrom, Written.andThen_assoc, Written.andThen_assoc]

theorem writeItems_cons (level : ℕ) (closing : String) (item : Value) (rest : List Value) :
    (writeItems deepest level (item :: rest)).andThen (.of closing) =
      (Written.of ("," ++ newline level)).andThen (itemsFrom deepest level closing item rest) := by
  rw [writeItems, itemsFrom, Written.andThen_assoc, Written.andThen_assoc]

theorem writeValue_record {level : ℕ} (hlevel : level < deepest) (field : String × Value)
    (rest : Fields) :
    writeValue deepest level (.record (field :: rest)) =
      (Written.of ("\x7b" ++ newline (level + 1) ++ stringText field.1 ++ ": ")).andThen
        (fieldsFrom deepest (level + 1) (newline level ++ "\x7d") field.2 rest) := by
  rw [writeValue, if_pos hlevel, fieldsFrom, Written.andThen_assoc, Written.andThen_assoc]

theorem writeFields_cons (level : ℕ) (closing : String) (field : String × Value) (rest : Fields) :
    (writeFields deepest level (field :: rest)).andThen (.of closing) =
      (Written.of ("," ++ newline level ++ stringText field.1 ++ ": ")).andThen
        (fieldsFrom deepest level closing field.2 rest) := by
  rw [writeFields, fieldsFrom, Written.andThen_assoc, Written.andThen_assoc]

theorem text_of_andThen (text : String) (second : Written) :
    ((Written.of text).andThen second).text = text ++ second.text :=
  Written.text_andThen rfl

theorem toList_writeValue_list {level : ℕ} (hlevel : level < deepest) (item : Value)
    (rest : List Value) :
    (writeValue deepest level (.list (item :: rest))).text.toList =
      '[' :: ((newline (level + 1)).toList ++
        (itemsFrom deepest (level + 1) (newline level ++ "]") item rest).text.toList) := by
  simp only [writeValue_list hlevel, text_of_andThen, String.toList_append]
  rfl

theorem toList_writeValue_record {level : ℕ} (hlevel : level < deepest) (field : String × Value)
    (rest : Fields) :
    (writeValue deepest level (.record (field :: rest))).text.toList =
      '\x7b' :: ((newline (level + 1)).toList ++ ((stringText field.1).toList ++ ':' :: ' ' ::
        (fieldsFrom deepest (level + 1) (newline level ++ "\x7d") field.2 rest).text.toList)) := by
  simp only [writeValue_record hlevel, text_of_andThen, String.toList_append, List.append_assoc]
  rfl

theorem skipSpace_of_head {cs : List Char} (h : ∀ c ∈ cs.head?, isSpace c = false) :
    skipSpace cs = cs := by
  cases cs with
  | nil => rfl
  | cons c cs => rw [skipSpace, List.dropWhile_cons, h c rfl, if_neg Bool.false_ne_true]

theorem skipSpace_newline (level : ℕ) (cs : List Char) :
    skipSpace ((newline level).toList ++ cs) = skipSpace cs := by
  have hblank : ∀ c ∈ (newline level).toList, isSpace c = true := by
    intro c hc
    rw [newline, String.toList_append, List.mem_append] at hc
    rcases hc with hc | hc
    · obtain rfl := List.mem_singleton.mp hc
      rfl
    · rw [String.toList_ofList] at hc
      obtain rfl := List.eq_of_mem_replicate hc
      rfl
  exact List.dropWhile_append_of_pos hblank

/-- Characters of which the first one is neither a blank nor a closing bracket. -/
def Starts (cs : List Char) : Prop := ∃ c tail, cs = c :: tail ∧ isSpace c = false ∧ c ≠ ']'

theorem starts_cons {c : Char} (hspace : isSpace c = false) (hbracket : c ≠ ']') (cs : List Char) :
    Starts (c :: cs) :=
  ⟨c, cs, rfl, hspace, hbracket⟩

theorem Starts.append {cs : List Char} (h : Starts cs) (more : List Char) : Starts (cs ++ more) := by
  obtain ⟨c, tail, rfl, hspace, hbracket⟩ := h
  exact starts_cons hspace hbracket (tail ++ more)

theorem Starts.skipSpace_eq {cs : List Char} (h : Starts cs) : skipSpace cs = cs := by
  obtain ⟨c, tail, rfl, hspace, -⟩ := h
  exact skipSpace_of_head fun _ hd => by cases hd; exact hspace

theorem starts_digit {d : Char} (hd : d.isDigit = true) (cs : List Char) : Starts (d :: cs) := by
  apply starts_cons
  · by_contra h
    simp only [isSpace, Bool.not_eq_false, Bool.or_eq_true, beq_iff_eq] at h
    rcases h with ((rfl | rfl) | rfl) | rfl <;> cases hd
  · rintro rfl
    cases hd

theorem starts_intText (n : ℤ) : Starts (Decimal.intText n).toList := by
  rw [toList_intText, signChars]
  split
  · exact starts_cons rfl (by decide) _
  · obtain ⟨d, ds, hdigits⟩ := List.exists_cons_of_ne_nil (isWhole_toDigits n.natAbs).ne_nil
    rw [hdigits]
    exact starts_digit (Decimal.isDigit_of_mem (hdigits ▸ List.mem_cons_self)) ds

theorem ends_nil : Ends [] := by
  rintro _ ⟨⟩

theorem starts_floatText (x : Float) : Starts (floatText x).toList := by
  rw [floatText]
  split
  · exact starts_cons rfl (by decide) _
  next hnan =>
    split
    · split
      · exact starts_cons rfl (by decide) _
      · exact starts_cons rfl (by decide) _
    next hinf =>
      rw [Bool.not_eq_true] at hnan hinf
      have hread := number_shortest hnan hinf ends_nil
      rw [List.append_nil] at hread
      obtain ⟨d, tail, hcs | hcs, hd⟩ := exists_digit_of_number hread
      · exact hcs ▸ starts_digit hd tail
      · exact hcs ▸ starts_cons rfl (by decide) _

/-- Writing stops at once, or something is written. -/
theorem eq_stopped_or_starts (deepest level : ℕ) (v : Value) :
    (∃ cause, writeValue deepest level v = .stopped cause) ∨
      Starts (writeValue deepest level v).text.toList := by
  cases v with
  | null => rw [writeValue]; exact .inr (starts_cons rfl (by decide) _)
  | bool b =>
      rw [writeValue]
      cases b <;> exact .inr (starts_cons rfl (by decide) _)
  | int n => rw [writeValue]; exact .inr (starts_intText n)
  | float x => rw [writeValue]; exact .inr (starts_floatText x)
  | text s =>
      rw [writeValue, Written.of, stringText, String.toList_ofList]
      exact .inr (starts_cons rfl (by decide) _)
  | moment m => rw [writeValue]; exact .inl ⟨.wrongType, rfl⟩
  | list items =>
      by_cases hlevel : level < deepest
      · right
        cases items with
        | nil => rw [writeValue, if_pos hlevel]; exact starts_cons rfl (by decide) _
        | cons item rest =>
            rw [toList_writeValue_list hlevel]
            exact starts_cons rfl (by decide) _
      · exact .inl ⟨.tooDeep, writeValue_list_of_deep items hlevel⟩
  | record fields =>
      by_cases hlevel : level < deepest
      · right
        cases fields with
        | nil => rw [writeValue, if_pos hlevel]; exact starts_cons rfl (by decide) _
        | cons field rest =>
            rw [toList_writeValue_record hlevel]
            exact starts_cons rfl (by decide) _
      · exact .inl ⟨.tooDeep, writeValue_record_of_deep fields hlevel⟩

section Whole

variable {level : ℕ} {v : Value}

theorem complete_of_not_halts (hv : halts deepest level v = false) :
    (writeValue deepest level v).complete = true := by
  rw [complete_writeValue, hv, Bool.not_false]

theorem starts_writeValue (hv : halts deepest level v = false) :
    Starts (writeValue deepest level v).text.toList := by
  rcases eq_stopped_or_starts deepest level v with ⟨cause, hstop⟩ | hstarts
  · have hcomplete := complete_of_not_halts hv
    rw [hstop, Written.complete_stopped] at hcomplete
    cases hcomplete
  · exact hstarts

theorem starts_andThen (hv : halts deepest level v = false) (second : Written) :
    Starts ((writeValue deepest level v).andThen second).text.toList := by
  rw [Written.text_andThen (complete_of_not_halts hv), String.toList_append]
  exact (starts_writeValue hv).append second.text.toList

theorem starts_itemsFrom (hv : halts deepest level v = false) (closing : String)
    (rest : List Value) : Starts (itemsFrom deepest level closing v rest).text.toList :=
  starts_andThen hv _

theorem starts_fieldsFrom (hv : halts deepest level v = false) (closing : String)
    (rest : Fields) : Starts (fieldsFrom deepest level closing v rest).text.toList :=
  starts_andThen hv _

end Whole

section Stopping

variable {deepest level : ℕ} {cause : Fault}

/-- What may stop the writing of a value at a level. -/
def MayStop (deepest level : ℕ) (v : Value) : Fault → Prop
  | .wrongType => v.hasMoment = true
  | .tooDeep => deepest < level + v.depth
  | _ => False

theorem MayStop.list {items : List Value} {item : Value} (hitem : item ∈ items)
    (h : MayStop deepest (level + 1) item cause) : MayStop deepest level (.list items) cause := by
  cases cause with
  | wrongType =>
      rw [MayStop, Value.hasMoment_list, List.any_eq_true]
      exact ⟨item, hitem, h⟩
  | tooDeep =>
      have hdepth := Value.depths_le_iff.mp (le_refl (Value.depths items)) item hitem
      rw [MayStop] at h
      rw [MayStop, Value.depth]
      omega
  | _ => exact h

theorem MayStop.record {fields : Fields} {field : String × Value} (hfield : field ∈ fields)
    (h : MayStop deepest (level + 1) field.2 cause) :
    MayStop deepest level (.record fields) cause := by
  cases cause with
  | wrongType =>
      rw [MayStop, Value.hasMoment_record, List.any_eq_true]
      exact ⟨field, hfield, h⟩
  | tooDeep =>
      have hdepth := Value.depthFields_le_iff.mp (le_refl (Value.depthFields fields)) field hfield
      rw [MayStop] at h
      rw [MayStop, Value.depth]
      omega
  | _ => exact h

theorem exists_of_stop?_itemsFrom {closing : String} {item : Value} {rest : List Value}
    (h : (itemsFrom deepest level closing item rest).stop? = some cause) :
    ∃ other ∈ item :: rest, (writeValue deepest level other).stop? = some cause := by
  induction rest generalizing item with
  | nil =>
      rcases Written.stop?_andThen h with hitem | hclosing
      · exact ⟨item, List.mem_cons_self, hitem⟩
      · cases hclosing
  | cons next rest ih =>
      rw [itemsFrom, writeItems_cons] at h
      rcases Written.stop?_andThen h with hitem | hrest
      · exact ⟨item, List.mem_cons_self, hitem⟩
      · obtain ⟨other, hother, hstop⟩ := ih hrest
        exact ⟨other, List.mem_cons_of_mem item hother, hstop⟩

theorem exists_of_stop?_fieldsFrom {closing : String} {field : String × Value} {rest : Fields}
    (h : (fieldsFrom deepest level closing field.2 rest).stop? = some cause) :
    ∃ other ∈ field :: rest, (writeValue deepest level other.2).stop? = some cause := by
  induction rest generalizing field with
  | nil =>
      rcases Written.stop?_andThen h with hfield | hclosing
      · exact ⟨field, List.mem_cons_self, hfield⟩
      · cases hclosing
  | cons next rest ih =>
      rw [fieldsFrom, writeFields_cons] at h
      rcases Written.stop?_andThen h with hfield | hrest
      · exact ⟨field, List.mem_cons_self, hfield⟩
      · obtain ⟨other, hother, hstop⟩ := ih hrest
        exact ⟨other, List.mem_cons_of_mem field hother, hstop⟩

/-- Writing stops for a moment of time in the value, or because the value is too deep. -/
theorem mayStop_of_stop? {v : Value} (h : (writeValue deepest level v).stop? = some cause) :
    MayStop deepest level v cause := by
  induction v using Value.byParts generalizing level with
  | null => rw [writeValue] at h; cases h
  | bool b => rw [writeValue] at h; cases h
  | int n => rw [writeValue] at h; cases h
  | float x => rw [writeValue] at h; cases h
  | text s => rw [writeValue] at h; cases h
  | moment m => rw [writeValue] at h; cases h; rfl
  | list items ih =>
      by_cases hlevel : level < deepest
      · cases items with
        | nil => rw [writeValue, if_pos hlevel] at h; cases h
        | cons item rest =>
            rw [writeValue_list hlevel] at h
            obtain ⟨other, hother, hstop⟩ := exists_of_stop?_itemsFrom h
            exact .list hother (ih other hother hstop)
      · rw [writeValue_list_of_deep items hlevel] at h
        cases h
        rw [MayStop, Value.depth]
        omega
  | record fields ih =>
      by_cases hlevel : level < deepest
      · cases fields with
        | nil => rw [writeValue, if_pos hlevel] at h; cases h
        | cons field rest =>
            rw [writeValue_record hlevel] at h
            obtain ⟨other, hother, hstop⟩ := exists_of_stop?_fieldsFrom h
            exact .record hother (ih other hother hstop)
      · rw [writeValue_record_of_deep fields hlevel] at h
        cases h
        rw [MayStop, Value.depth]
        omega

end Stopping

end SparseWeights.Json
