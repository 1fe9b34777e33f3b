import SparseWeights.Proofs.Penalty.Ranks
import SparseWeights.Proofs.Pooling.Projection

/-!
The sorted proximal map, rank by rank. For any order of the places by magnitude
the thresholds are taken off the ranked magnitudes, what is left is projected,
and every place gets the level of its rank with the sign of its entry. The
places are written once each, so this is all the map does. Thresholds that are
not negative leave no level above the magnitude it came from; where they fall
too, the amounts taken off are bounded by sums of the first thresholds.
-/

namespace SparseWeights

open Finset

variable {n : ℕ}

/-- The loop that puts entries back sets each place in the list to its value. -/
private theorem foldl_set_of_mem {α : Type} {places : List (Fin n × α)}
    (hnodup : (places.map Prod.fst).Nodup) (f : Fin n → α → α) (out : Vec α n) :
    (∀ i, i ∉ places.map Prod.fst →
      (places.foldl (fun out (i, x) => out.set i.val (f i x) i.isLt) out).get i =
        out.get i) ∧
    ∀ i x, (i, x) ∈ places →
      (places.foldl (fun out (i, x) => out.set i.val (f i x) i.isLt) out).get i =
        f i x := by
  induction places generalizing out with
  | nil => simp
  | cons head rest ih =>
      obtain ⟨hhead, hrest⟩ := List.nodup_cons.mp hnodup
      obtain ⟨hkeep, hset⟩ := ih hrest (out.set head.1.val (f head.1 head.2) head.1.isLt)
      constructor
      · intro i hi
        rw [List.map_cons, List.mem_cons, not_or] at hi
        rw [List.foldl_cons, hkeep i hi.2, Vec.get_eq_getElem, Vec.get_eq_getElem,
          Vector.getElem_set_ne]
        intro h
        exact hi.1 (Fin.ext h.symm)
      · intro i x hmem
        rw [List.foldl_cons]
        rcases List.mem_cons.mp hmem with heq | hmem
        · obtain ⟨rfl, rfl⟩ := Prod.mk.inj heq
          rw [hkeep _ hhead, Vec.get_eq_getElem, Vector.getElem_set_self]
        · exact hset i x hmem

theorem scatter_get {α : Type} [Scalar α] (places : Equiv.Perm (Fin n))
    (y z out : Vec α n) (k : Fin n) :
    (scatter (List.ofFn places) y z out).get (places k) =
      Scalar.sign (y.get (places k)) * z.get k := by
  have hzip : (List.ofFn places).zip z.toList =
      List.ofFn fun k => (places k, z.get k) := by
    rw [Vec.toList_eq_ofFn]
    apply List.ext_getElem
    · simp
    · intro j hleft hright
      simp
  have hnodup : (((List.ofFn places).zip z.toList).map Prod.fst).Nodup := by
    rw [hzip, List.map_ofFn]
    exact List.nodup_ofFn.mpr places.injective
  apply (foldl_set_of_mem hnodup
    (fun i x => Scalar.sign (y.get i) * x) out).2
  rw [hzip]
  exact List.mem_ofFn.mpr ⟨k, rfl⟩

theorem reduced_get (places : Equiv.Perm (Fin n)) (y thresholds : Vec ℝ n)
    (k : Fin n) :
    (reduced (List.ofFn places) y thresholds).get k =
      |y.get (places k)| - thresholds.get k := by
  simp [reduced]

section Along

variable {places : Equiv.Perm (Fin n)} {y thresholds : Vec ℝ n}

/-- The magnitudes that the sorted map gives to the ranks. -/
noncomputable def levels (places : Equiv.Perm (Fin n))
    (y thresholds : Vec ℝ n) : ℕ → ℝ :=
  Falling.extend (project (reduced (List.ofFn places) y thresholds)).get

theorem levels_isProjection :
    IsProjection n
      (fun k => Falling.extend (fun k => |y.get (places k)|) k -
        Falling.extend thresholds.get k)
      (levels places y thresholds) := by
  have hinput : (fun k => Falling.extend (fun k => |y.get (places k)|) k -
      Falling.extend thresholds.get k) =
      Falling.extend (reduced (List.ofFn places) y thresholds).get := by
    funext k
    by_cases hk : k < n
    · simp [Falling.extend, hk, reduced_get]
    · simp [Falling.extend, hk]
  rw [hinput]
  exact project_isProjection _

theorem levels_le (hplaces : y.Ranks places)
    (hnonneg : ∀ i, 0 ≤ thresholds.get i) (k : ℕ) :
    levels places y thresholds k ≤
      Falling.extend (fun k => |y.get (places k)|) k :=
  levels_isProjection.le_of_sub
    hplaces.antitone_extend (Falling.extend_nonneg _ fun _ => abs_nonneg _)
    (Falling.extend_nonneg _ hnonneg) (fun _ _ => rfl) k

/-- An entry and its image have the same sign and the magnitudes of the rank. -/
theorem exists_sign (hplaces : y.Ranks places)
    (hnonneg : ∀ i, 0 ≤ thresholds.get i) (k : Fin n) :
    ∃ e : ℝ, |e| = 1 ∧ y.get (places k) = e * |y.get (places k)| ∧
      (proxAlong (List.ofFn places) y thresholds).get (places k) =
        e * levels places y thresholds k := by
  have himage : (proxAlong (List.ofFn places) y thresholds).get (places k) =
      Scalar.sign (y.get (places k)) * levels places y thresholds k := by
    rw [proxAlong, scatter_get, levels, Falling.extend_val]
  by_cases hy : y.get (places k) = 0
  · have hzero : levels places y thresholds k = 0 := by
      apply le_antisymm _ (levels_isProjection.nonneg k)
      have hle := levels_le hplaces hnonneg k
      rwa [Falling.extend_val, hy, abs_zero] at hle
    refine ⟨1, abs_one, ?_, ?_⟩
    · rw [hy, abs_zero, mul_zero]
    · rw [himage, hzero, mul_zero, mul_zero]
  · exact ⟨Scalar.sign (y.get (places k)), Scalar.abs_sign _ hy,
      (Scalar.sign_mul_abs _).symm, himage⟩

theorem abs_proxAlong (hplaces : y.Ranks places) (hnonneg : ∀ i, 0 ≤ thresholds.get i)
    (k : Fin n) :
    |(proxAlong (List.ofFn places) y thresholds).get (places k)| =
      levels places y thresholds k := by
  obtain ⟨e, he, _, himage⟩ := exists_sign hplaces hnonneg k
  rw [himage, abs_mul, he, one_mul, abs_of_nonneg (levels_isProjection.nonneg k)]

theorem ranked_proxAlong (hplaces : y.Ranks places)
    (hnonneg : ∀ i, 0 ≤ thresholds.get i) :
    Vec.ranked (proxAlong (List.ofFn places) y thresholds) =
      levels places y thresholds := by
  have hranks : (proxAlong (List.ofFn places) y thresholds).Ranks places := by
    intro j k hjk
    change |_| ≤ |_|
    rw [abs_proxAlong hplaces hnonneg, abs_proxAlong hplaces hnonneg]
    exact levels_isProjection.antitone hjk
  rw [Vec.ranked_eq_extend hranks]
  funext k
  by_cases hk : k < n
  · rw [Falling.extend, dif_pos hk, abs_proxAlong hplaces hnonneg]
  · rw [Falling.extend_of_le _ (not_lt.mp hk),
      levels_isProjection.zero_of_le k (not_lt.mp hk)]

/-- What the sorted map takes off chosen places is at most the sum of as many
thresholds from the first one on. -/
theorem sum_taken_le (hplaces : y.Ranks places)
    (hnonneg : ∀ i, 0 ≤ thresholds.get i) (hfalls : Antitone thresholds.get)
    (chosen : Finset (Fin n)) :
    ∑ i ∈ chosen, |y.get i - (proxAlong (List.ofFn places) y thresholds).get i| ≤
      ∑ k ∈ range chosen.card, Falling.extend thresholds.get k := by
  have hranks := levels_isProjection.sum_chosen_le hplaces.antitone_extend
    (Falling.extend_antitone _ hfalls hnonneg) (fun _ _ => rfl)
    (Vec.rankSet places chosen) (Vec.rankSet_subset places chosen)
  rw [Vec.sum_rankSet, Vec.card_rankSet] at hranks
  refine le_of_eq_of_le ?_ hranks
  apply sum_congr rfl
  intro i _
  obtain ⟨k, rfl⟩ := places.surjective i
  obtain ⟨e, he, hy, himage⟩ := exists_sign hplaces hnonneg k
  have hle := levels_le hplaces hnonneg k
  rw [Falling.extend_val] at hle
  have htaken : y.get (places k) -
      (proxAlong (List.ofFn places) y thresholds).get (places k) =
      e * (|y.get (places k)| - levels places y thresholds k) := by
    rw [himage, mul_sub, ← hy]
  rw [htaken, abs_mul, he, one_mul, abs_of_nonneg (sub_nonneg.mpr hle)]
  simp

/-- What the sorted map takes off, paired with the result, is the weighted sum
of the ranked magnitudes of the result. -/
theorem sum_taken_mul (hplaces : y.Ranks places)
    (hnonneg : ∀ i, 0 ≤ thresholds.get i) :
    ∑ i, (y.get i - (proxAlong (List.ofFn places) y thresholds).get i) *
        (proxAlong (List.ofFn places) y thresholds).get i =
      ∑ k ∈ range n, Falling.extend thresholds.get k *
        levels places y thresholds k := by
  have hentry (k : Fin n) :
      (y.get (places k) -
        (proxAlong (List.ofFn places) y thresholds).get (places k)) *
        (proxAlong (List.ofFn places) y thresholds).get (places k) =
      (|y.get (places k)| - levels places y thresholds k) *
        levels places y thresholds k := by
    obtain ⟨e, he, hy, himage⟩ := exists_sign hplaces hnonneg k
    have hsquare : e * e = 1 := by
      rw [← abs_mul_abs_self, he, one_mul]
    rw [himage]
    nth_rewrite 1 [hy]
    linear_combination (|y.get (places k)| - levels places y thresholds k) *
      levels places y thresholds k * hsquare
  have hprojection : IsProjection n _ (levels places y thresholds) :=
    levels_isProjection
  have hright := hprojection.sum_sub_mul_eq_zero
  have hsplit : ∑ k ∈ range n, (Falling.extend (fun k => |y.get (places k)|) k -
      levels places y thresholds k) * levels places y thresholds k =
      ∑ k ∈ range n, Falling.extend thresholds.get k *
        levels places y thresholds k := by
    rw [← sub_eq_zero, ← sum_sub_distrib, ← hright]
    apply sum_congr rfl
    intro k _
    ring
  rw [← hsplit, ← Equiv.sum_comp places, ← Fin.sum_univ_eq_sum_range]
  apply sum_congr rfl
  intro k _
  rw [hentry, Falling.extend_val]

end Along

end SparseWeights
