import SparseWeights.Penalty.Spec
import SparseWeights.Proofs.Penalty.Along

/-!
What the sorted proximal map does to single entries, for thresholds in any order
that are not negative. No entry changes its side of zero or grows, and of two
magnitudes the larger one does not become the smaller one. Equal magnitudes may
come apart where a later threshold is larger. Where the thresholds fall they stay
equal: of entries of one magnitude the later ones lose less, which is out of order,
and pooling puts all of them on one level.
-/

namespace SparseWeights

variable {n : ℕ}

/-- The entries move towards zero and not past it, and keep the order of their
magnitudes. -/
structure Shrinks (y v : Vec ℝ n) : Prop where
  same_side : ∀ i, 0 ≤ v.get i * y.get i
  abs_le : ∀ i, |v.get i| ≤ |y.get i|
  keeps_order : ∀ i j, |y.get j| < |y.get i| → |v.get j| ≤ |v.get i|

section Along

variable {places : Equiv.Perm (Fin n)} {y thresholds : Vec ℝ n}

theorem proxAlong_shrinks (hplaces : y.Ranks places) (hnonneg : ∀ i, 0 ≤ thresholds.get i) :
    Shrinks y (proxAlong (List.ofFn places) y thresholds) := by
  refine ⟨?_, ?_, ?_⟩
  · intro i
    obtain ⟨k, rfl⟩ := places.surjective i
    obtain ⟨e, _, hy, himage⟩ := exists_sign hplaces hnonneg k
    have hlevel : 0 ≤ levels places y thresholds k := levels_isProjection.nonneg k
    have hproduct := mul_nonneg (mul_self_nonneg e)
      (mul_nonneg hlevel (abs_nonneg (y.get (places k))))
    rw [himage, hy]
    linarith
  · intro i
    obtain ⟨k, rfl⟩ := places.surjective i
    have hle := levels_le hplaces hnonneg k
    rwa [Falling.extend_val, ← abs_proxAlong hplaces hnonneg] at hle
  · intro i j hlt
    obtain ⟨k, rfl⟩ := places.surjective i
    obtain ⟨l, rfl⟩ := places.surjective j
    have hrank : k ≤ l := by
      by_contra hlater
      exact absurd (hplaces (not_le.mp hlater).le) (not_le.mpr hlt)
    rw [abs_proxAlong hplaces hnonneg, abs_proxAlong hplaces hnonneg]
    exact levels_isProjection.antitone hrank

/-- Ranks of one magnitude get one level, if the thresholds fall. -/
theorem levels_eq_of_abs_eq (hplaces : y.Ranks places) (hnonneg : ∀ i, 0 ≤ thresholds.get i)
    (hfalls : Antitone thresholds.get) {k l : Fin n} (hkl : k ≤ l)
    (heq : |y.get (places k)| = |y.get (places l)|) :
    levels places y thresholds l = levels places y thresholds k := by
  set magnitude := Falling.extend fun k => |y.get (places k)| with hmagnitude
  have hmagnitudes : Antitone magnitude := hplaces.antitone_extend
  have hthresholds := Falling.extend_antitone _ hfalls hnonneg
  have hends : magnitude k = magnitude l := by
    simpa [hmagnitude] using heq
  apply levels_isProjection.level_eq_of_monotoneOn hkl l.isLt
  intro a ha b hb hab
  have hfirst := hmagnitudes ha.1
  have hlast := hmagnitudes hb.2
  have htaken := hthresholds hab
  change magnitude a - _ ≤ magnitude b - _
  linarith

theorem abs_proxAlong_eq (hplaces : y.Ranks places) (hnonneg : ∀ i, 0 ≤ thresholds.get i)
    (hfalls : Antitone thresholds.get) {i j : Fin n} (heq : |y.get i| = |y.get j|) :
    |(proxAlong (List.ofFn places) y thresholds).get i| =
      |(proxAlong (List.ofFn places) y thresholds).get j| := by
  obtain ⟨k, rfl⟩ := places.surjective i
  obtain ⟨l, rfl⟩ := places.surjective j
  rw [abs_proxAlong hplaces hnonneg, abs_proxAlong hplaces hnonneg]
  rcases le_total k l with hkl | hlk
  · exact (levels_eq_of_abs_eq hplaces hnonneg hfalls hkl heq).symm
  · exact levels_eq_of_abs_eq hplaces hnonneg hfalls hlk heq.symm

end Along

namespace PenaltySpec

/-- The sorted map returns as many entries as it is given. They have shrunk, in
whatever order the thresholds come; if these fall, ties remain ties. -/
theorem proxThresholds_shrinks {y thresholds : Tensor ℝ}
    (hsize : thresholds.size = y.size) (hnonneg : ∀ x ∈ thresholds.entries, 0 ≤ x) :
    ∃ v : Vec ℝ y.size, proxThresholds y thresholds = .ok (.ofVec v) ∧
      Shrinks y.flat v ∧
      (thresholds.entries.Pairwise (· ≥ ·) →
        ∀ i j, |y.flat.get i| = |y.flat.get j| → |v.get i| = |v.get j|) := by
  have hentries (i : Fin y.size) : 0 ≤ (thresholds.flat.cast hsize).get i :=
    hnonneg _ (List.getElem_mem _)
  obtain ⟨places, horder, hplaces⟩ := Vec.exists_ranks y.flat
  refine ⟨proxSorted y.flat (thresholds.flat.cast hsize), dif_pos hsize, ?_, ?_⟩
  · rw [proxSorted, horder]
    exact proxAlong_shrinks hplaces hentries
  · intro hpairwise i j heq
    have hfalls : Antitone (thresholds.flat.cast hsize).get := by
      intro j k hjk
      rcases hjk.eq_or_lt with rfl | hlt
      · exact le_rfl
      · exact List.pairwise_iff_getElem.mp hpairwise _ _ _ _ hlt
    rw [proxSorted, horder]
    exact abs_proxAlong_eq hplaces hentries hfalls heq

/-- Two entries on either side of zero lose different thresholds and end on one
level. -/
theorem proxThresholds_shrinks_pair :
    (Tensor.ofList [2, 1] : Tensor ℝ).size = (Tensor.ofList [3, -3] : Tensor ℝ).size ∧
      (∀ x ∈ (Tensor.ofList [2, 1] : Tensor ℝ).entries, 0 ≤ x) ∧
      (Tensor.ofList [2, 1] : Tensor ℝ).entries.Pairwise (· ≥ ·) ∧
      ∃ v : Vec ℝ 2,
        proxThresholds (Tensor.ofList [3, -3] : Tensor ℝ) (.ofList [2, 1]) =
          .ok (.ofVec v) ∧
        Shrinks #v[3, -3] v ∧ |v.get 0| = |v.get 1| := by
  have hsize : (Tensor.ofList [2, 1] : Tensor ℝ).size =
      (Tensor.ofList [3, -3] : Tensor ℝ).size := rfl
  have hnonneg : ∀ x ∈ (Tensor.ofList [2, 1] : Tensor ℝ).entries, 0 ≤ x := by
    simp [Tensor.ofList]
  have hfalls : (Tensor.ofList [2, 1] : Tensor ℝ).entries.Pairwise (· ≥ ·) := by
    simp [Tensor.ofList]
  have htie : |(3 : ℝ)| = |(-3 : ℝ)| := (abs_neg 3).symm
  obtain ⟨v, hresult, hshrinks, hties⟩ :=
    proxThresholds_shrinks hsize hnonneg
  exact ⟨hsize, hnonneg, hfalls, v, hresult, hshrinks,
    hties hfalls (0 : Fin 2) (1 : Fin 2) htie⟩

end PenaltySpec

end SparseWeights
