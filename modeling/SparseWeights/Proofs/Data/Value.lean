import SparseWeights.Data.Value

/-!
Records that are written to. Of several values written under one name the last
one stands, and all other names keep what they had.
-/

namespace SparseWeights

namespace Fields

theorem has_put (name : String) (value : Value) (fields : Fields) (other : String) :
    (fields.put name value).has other = (name == other || fields.has other) := by
  induction fields with
  | nil => simp [put, has]
  | cons field rest ih =>
      by_cases h : field.1 = name
      · simp [put, has, h]
      · simp only [has] at ih
        simp only [put, h, if_false, has, List.any_cons, ih]
        exact Bool.or_left_comm ..

theorem map_fst_put (name : String) (value : Value) (fields : Fields) :
    (fields.put name value).map (·.1) =
      if name ∈ fields.map (·.1) then fields.map (·.1) else fields.map (·.1) ++ [name] := by
  induction fields with
  | nil => rfl
  | cons field rest ih =>
      by_cases h : field.1 = name
      · simp [put, h]
      · have hname : name ∈ (field :: rest).map (·.1) ↔ name ∈ rest.map (·.1) := by
          rw [List.map_cons, List.mem_cons, or_iff_right fun heq => h heq.symm]
        rw [put, if_neg h, List.map_cons, ih]
        split
        next hmem => rw [if_pos (hname.mpr hmem), List.map_cons]
        next hmem => rw [if_neg (hmem ∘ hname.mp), List.map_cons, List.cons_append]

/-- No name is doubled by writing. -/
theorem nodup_put {fields : Fields} (h : (fields.map (·.1)).Nodup) (name : String) (value : Value) :
    ((fields.put name value).map (·.1)).Nodup := by
  rw [map_fst_put]
  split
  next => exact h
  next hname => exact List.nodup_append.mpr ⟨h, List.pairwise_singleton _ name, by grind⟩

theorem mem_put {field : String × Value} {name : String} {value : Value} {fields : Fields}
    (h : field ∈ fields.put name value) : field = (name, value) ∨ field ∈ fields := by
  induction fields with
  | nil => exact .inl (List.mem_singleton.mp h)
  | cons first rest ih =>
      rw [put] at h
      split at h
      · exact (List.mem_cons.mp h).imp_right (List.mem_cons_of_mem first)
      · rcases List.mem_cons.mp h with rfl | h
        · exact .inr List.mem_cons_self
        · exact (ih h).imp_right (List.mem_cons_of_mem first)

theorem put_of_not_mem {name : String} {fields : Fields} (h : name ∉ fields.map (·.1))
    (value : Value) : fields.put name value = fields ++ [(name, value)] := by
  induction fields with
  | nil => rfl
  | cons field rest ih =>
      rw [List.map_cons, List.mem_cons, not_or] at h
      rw [put, if_neg fun heq => h.1 heq.symm, ih h.2, List.cons_append]

theorem foldl_put_of_nodup {writes fields : Fields} (h : ((fields ++ writes).map (·.1)).Nodup) :
    writes.foldl (fun all field => all.put field.1 field.2) fields = fields ++ writes := by
  induction writes generalizing fields with
  | nil => rw [List.foldl_nil, List.append_nil]
  | cons field rest ih =>
      have hnew : field.1 ∉ fields.map (·.1) := by
        rw [List.map_append, List.map_cons] at h
        exact fun hmem => (List.nodup_append.mp h).2.2 _ hmem _ List.mem_cons_self rfl
      rw [List.foldl_cons, put_of_not_mem hnew, ih (by rwa [List.append_assoc]), List.append_assoc]
      rfl

/-- Fields of different names all stay. -/
theorem ofList_of_nodup {fields : Fields} (h : (fields.map (·.1)).Nodup) : ofList fields = fields :=
  foldl_put_of_nodup h

end Fields

end SparseWeights
