import SparseWeights.Penalty.Basic
import SparseWeights.Proofs.Checked.Arithmetic

/-!
Penalties with defined numbers only. The one division is that of a pooled sum by
the number of its entries, of which there is at least one. Sorting and scattering
compare and move numbers, and do not compute any.
-/

namespace SparseWeights

variable {n : ℕ}

namespace Block

def checked (b : Block ℝ) : Block Checked :=
  ⟨b.first, b.last, .number b.total, .number b.mean⟩

theorem merge_checked (b c : Block ℝ) : b.checked.merge c.checked = (b.merge c).checked := by
  -- Even for blocks that are no neighbours the count is a successor.
  have hcount : ((c.last - b.first + 1 : ℕ) : ℝ) ≠ 0 := Nat.cast_ne_zero.mpr (Nat.succ_ne_zero _)
  have hmean := Checked.number_div (b.total + c.total) hcount
  simp only [merge, checked, Checked.number_add, Checked.number_ofNat, hmean,
    Scalar.ofNat_eq_cast]

theorem settle_checked (stack : List (Block ℝ)) (b : Block ℝ) :
    settle (stack.map checked) b.checked = (settle stack b).map checked := by
  induction stack generalizing b with
  | nil => rfl
  | cons top rest ih =>
      have hmean : top.checked.mean ≤ b.checked.mean ↔ top.mean ≤ b.mean :=
        Checked.number_le _ _
      rw [List.map_cons, settle, settle]
      simp only [hmean]
      split
      · rw [merge_checked, ih]
      · rfl

theorem ofSequence_checked (s : Vec ℝ n) :
    ofSequence s.checked = (ofSequence s).map checked := by
  rw [ofSequence, ← List.map_nil (f := checked), ofSequence]
  apply List.foldl_hom (List.map checked)
  intro stack i
  rw [← settle_checked]
  simp [single, checked]

theorem fill_checked (z : Vec ℝ n) (b : Block ℝ) :
    fill z.checked b.checked = (fill z b).checked := by
  have hlevel : b.checked.level = .number b.level := Checked.number_larger _ _
  rw [fill, fill, hlevel]
  apply List.foldl_hom Vec.checked
  intro z i
  exact Vector.map_setIfInBounds.symm

end Block

theorem projectOver_checked (z s : Vec ℝ n) :
    projectOver z.checked s.checked = (projectOver z s).checked := by
  rw [projectOver, Block.ofSequence_checked, ← List.map_reverse, List.foldl_map, projectOver]
  apply List.foldl_hom Vec.checked
  exact Block.fill_checked

theorem replicate_zero_checked :
    (Vector.replicate n 0 : Vec Checked n) = Vec.checked (Vector.replicate n 0) := by
  simp [Checked.zero_eq]

theorem project_checked (s : Vec ℝ n) : project s.checked = (project s).checked := by
  rw [project, replicate_zero_checked, projectOver_checked, project]

theorem softThreshold_checked (y threshold : ℝ) :
    softThreshold (Checked.number y) (.number threshold) =
      .number (softThreshold y threshold) := by
  simp only [softThreshold, Checked.zero_eq, Checked.number_sign, Checked.number_abs,
    Checked.number_sub, Checked.number_maxNaN, Checked.number_mul,
    Scalar.abs_eq_abs]

namespace Vec

theorem order_checked (y : Vec ℝ n) : order y.checked = order y := by
  have hprecedes : precedes y.checked = precedes y := by
    funext i j
    simp [precedes]
  rw [order, hprecedes, order]

theorem descending_checked (v : Vec ℝ n) :
    descending v.checked = (descending v).map .number := by
  have hsort := List.map_mergeSort (l := (magnitudes v).toList)
    (f := Checked.number) (r := fun a b => Scalar.isNaN a || decide (b ≤ a))
    (s := fun a b => Scalar.isNaN a || decide (b ≤ a))
    (fun a _ b _ => by simp)
  rw [descending, magnitudes_checked, Vector.toList_map, descending, hsort]

end Vec

theorem reduced_checked (order : List (Fin n)) (y thresholds : Vec ℝ n) :
    reduced order y.checked thresholds.checked = (reduced order y thresholds).checked := by
  apply Vec.eq_of_get
  intro k
  simp only [reduced, Vec.get_ofFn, Vec.get_map]
  cases order.toArray[k.val]? with
  | none => rfl
  | some i => rfl

theorem scatter_checked (order : List (Fin n)) (y z out : Vec ℝ n) :
    scatter order y.checked z.checked out.checked = (scatter order y z out).checked := by
  rw [scatter, Vector.toList_map, List.zip_map_right, List.foldl_map, scatter]
  apply List.foldl_hom Vec.checked
  intro out place
  simp [Vec.checked, Vector.map_set]

theorem proxSorted_checked (y thresholds : Vec ℝ n) :
    proxSorted y.checked thresholds.checked = (proxSorted y thresholds).checked := by
  rw [proxSorted, Vec.order_checked, proxAlong, reduced_checked, project_checked,
    replicate_zero_checked, scatter_checked, proxSorted, proxAlong]

theorem prefixSums_checked (sum : ℝ) (xs : List ℝ) :
    prefixSums (.number sum) (xs.map .number) = (prefixSums sum xs).map Checked.number := by
  induction xs generalizing sum with
  | nil => rfl
  | cons x xs ih => simp [prefixSums, ih]

namespace Penalty

def checked : Penalty ℝ n → Penalty Checked n
  | l1 lam => .l1 (.number lam)
  | sortedL1 lam => .sortedL1 lam.checked

theorem value_checked (p : Penalty ℝ n) (w : Vec ℝ n) :
    p.checked.value w.checked = .number (p.value w) := by
  cases p with
  | l1 lam => simp [checked, value]
  | sortedL1 lam =>
      rw [checked, value, Vec.descending_checked, Vector.toList_map,
        Checked.zipWith_number Checked.number_mul, Checked.foldl_number Checked.number_add,
        value]

theorem prox_checked (p : Penalty ℝ n) (y : Vec ℝ n) (t : ℝ) :
    p.checked.prox y.checked (.number t) = (p.prox y t).checked := by
  cases p with
  | l1 lam =>
      apply Vec.eq_of_get
      simp [checked, prox, softThreshold_checked]
  | sortedL1 lam => rw [checked, prox, Vec.scale_checked, proxSorted_checked, prox]

theorem dualInfeasibility_checked (p : Penalty ℝ n) (alpha : Vec ℝ n) :
    p.checked.dualInfeasibility alpha.checked = .number (p.dualInfeasibility alpha) := by
  cases p with
  | l1 lam => simp [checked, dualInfeasibility, Checked.zero_eq]
  | sortedL1 lam =>
      rw [checked, dualInfeasibility, Vec.descending_checked, Vector.toList_map,
        Checked.zipWith_number Checked.number_sub, Checked.zero_eq, prefixSums_checked,
        ← Checked.zero_eq, Checked.foldl_number Checked.number_maxNaN, dualInfeasibility]

end Penalty

end SparseWeights
