import Mathlib.Data.List.Forall2
import Mathlib.Data.List.Nodup
import SparseWeights.Proofs.Error
import SparseWeights.Study

/-!
Rows by their labels. Where every label is given once, a label brings its row,
whatever stands around it; so rows that are picked by labels depend on nothing but the
rows under these labels.
-/

namespace SparseWeights

/-- A computation over a list comes to an end where it does for each of its items. -/
theorem mapM_eq_ok_iff {ε α β : Type} {f : α → Except ε β} {xs : List α} {ys : List β} :
    xs.mapM f = .ok ys ↔ List.Forall₂ (fun x y => f x = .ok y) xs ys := by
  induction xs generalizing ys with
  | nil => cases ys <;> simp [pure, Except.pure]
  | cons x rest ih =>
      rw [List.mapM_cons, bind_eq_ok_iff, List.forall₂_cons_left_iff]
      simp only [bind_eq_ok_iff, ih, pure, Except.pure, Except.ok.injEq]
      grind

namespace Sheet

/-- Rows of one length make up the array of their matrix. -/
theorem array_toList {m n : Nat} (A : Mat Float m n) :
    array n (A.toList.map Vector.toList) = .ok (.ofMat A) := by
  have hlength : (A.toList.map Vector.toList).flatten.length =
      volume [(A.toList.map Vector.toList).length, n] := by
    rw [← List.flatMap_def, List.length_map, Vector.length_toList]
    exact (Tensor.ofMat A).length_eq
  rw [array, Tensor.ofEntries?, dif_pos hlength]
  simp [Tensor.ofMat, List.flatMap_def]

variable {sheet sheet' : Sheet} {labels : List String} {rows : List (List Cell)}
  {label : String} {row : List Cell}

theorem rowsAt_eq_nil_iff :
    sheet.rowsAt label = [] ↔ some label ∉ sheet.rows.map (·.1) := by
  rw [rowsAt, List.map_eq_nil_iff, List.filter_eq_nil_iff]
  simp only [beq_iff_eq, List.mem_map]
  grind

/-- A label that is given once brings its row. -/
theorem rowsAt_of_mem (hlabels : (sheet.rows.map (·.1)).Nodup)
    (hrow : (some label, row) ∈ sheet.rows) : sheet.rowsAt label = [row] := by
  obtain ⟨columns, rows⟩ := sheet
  obtain ⟨before, later, rfl⟩ := List.append_of_mem hrow
  have hother : ∀ other ∈ before ++ later, other.1 ≠ some label := by
    intro other hmem heq
    have hnodup := hlabels
    rw [List.map_append, List.map_cons, List.nodup_middle, ← List.map_append] at hnodup
    exact (List.nodup_cons.mp hnodup).1 (List.mem_map.mpr ⟨other, hmem, heq⟩)
  have hnone (others : List (Option String × List Cell)) (hothers : others ⊆ before ++ later) :
      others.filter (fun row => row.1 == some label) = [] := by
    rw [List.filter_eq_nil_iff]
    intro other hmem
    simpa using hother other (hothers hmem)
  simp only [rowsAt, List.filter_append, List.filter_cons, hnone before (by simp),
    hnone later (by simp)]
  simp

theorem rowsAt_dropRows (other : String) :
    (sheet.dropRows other).rowsAt label = if label = other then [] else sheet.rowsAt label := by
  rw [rowsAt, dropRows, List.filter_filter]
  split
  next heq =>
    rw [heq, List.map_eq_nil_iff, List.filter_eq_nil_iff]
    simp
  next hne =>
    rw [rowsAt]
    congr 2
    funext entry
    rw [Bool.and_eq_left_iff_imp]
    simp only [beq_iff_eq, bne_iff_ne]
    rintro heq hother
    exact hne (Option.some.inj (heq.symm.trans hother))

/-- Labels of which each has one row bring these rows, in their order. -/
theorem select_of_forall₂
    (h : List.Forall₂ (fun label row => sheet.rowsAt label = [row]) labels rows) :
    sheet.select labels = .ok rows := by
  induction h with
  | nil => rfl
  | cons hrow _ ih =>
      rw [select, hrow]
      simp only [ih]
      rfl

theorem select_eq_error (hlabel : label ∈ labels) (hnone : sheet.rowsAt label = []) :
    sheet.select labels = .error .noLabel := by
  induction labels with
  | nil => cases hlabel
  | cons first rest ih =>
      rw [select]
      split
      · rfl
      · rename_i hrows
        rcases List.mem_cons.mp hlabel with rfl | hlater
        · exact absurd hnone hrows
        · rw [ih hlater]
          rfl

/-- What is picked by labels depends on the rows under these labels alone. -/
theorem select_congr (h : ∀ label ∈ labels, sheet.rowsAt label = sheet'.rowsAt label) :
    sheet.select labels = sheet'.select labels := by
  induction labels with
  | nil => rfl
  | cons first rest ih =>
      obtain ⟨hfirst, hrest⟩ := List.forall_mem_cons.mp h
      rw [select, select, hfirst, ih hrest]

end Sheet

end SparseWeights
