import SparseWeights.Proofs.Penalty.Along
import SparseWeights.Proofs.Penalty.Ball

/-!
The proximal maps satisfy their optimality condition: what the map takes off
its argument, divided by the step, is a subgradient of the penalty at the
result. For the sorted penalty the condition is carried from the projection of
the ranked magnitudes back to the places, whose signs the map restores.
-/

namespace SparseWeights

open Finset

variable {n : ℕ}

namespace Penalty

/-- The multiplier is a subgradient of the penalty at the weights: it lies in
the dual ball and attains the penalty. -/
structure IsSubgradient (p : Penalty ℝ n) (v alpha : Vec ℝ n) : Prop where
  ball : p.InBall alpha.get
  tight : Vec.dot alpha v = p.value v

theorem isSubgradient_iff {p : Penalty ℝ n} (hp : p.Falls) {v alpha : Vec ℝ n} :
    p.IsSubgradient v alpha ↔
      p.dualInfeasibility alpha = 0 ∧ Vec.dot alpha v = p.value v := by
  rw [p.dualInfeasibility_eq_zero_iff hp]
  constructor
  · intro h
    exact ⟨h.ball, h.tight⟩
  · rintro ⟨hball, htight⟩
    exact ⟨hball, htight⟩

/-- The penalty lies above the tangent that a subgradient gives. -/
theorem IsSubgradient.value_add_dot_le {p : Penalty ℝ n} {v alpha : Vec ℝ n}
    (h : p.IsSubgradient v alpha) (u : Vec ℝ n) :
    p.value v + Vec.dot alpha (Vec.sub u v) ≤ p.value u := by
  have hbound := p.dot_le_value h.ball u
  rw [Vec.dot_sub, h.tight]
  linarith

/-- Subgradients are monotone. -/
theorem IsSubgradient.monotone {p : Penalty ℝ n} {v v' alpha alpha' : Vec ℝ n}
    (h : p.IsSubgradient v alpha) (h' : p.IsSubgradient v' alpha') :
    0 ≤ Vec.dot (Vec.sub alpha alpha') (Vec.sub v v') := by
  have hcross := p.dot_le_value h.ball v'
  have hcross' := p.dot_le_value h'.ball v
  rw [Vec.sub_dot, Vec.dot_sub, Vec.dot_sub, h.tight, h'.tight]
  linarith

/-- Weights and a subgradient at them are determined by their sum, whatever
positive factor the subgradient counts with. -/
theorem IsSubgradient.weights_eq {p : Penalty ℝ n} {v v' alpha alpha' : Vec ℝ n}
    (h : p.IsSubgradient v alpha) (h' : p.IsSubgradient v' alpha') {t : ℝ} (ht : 0 < t)
    (hsum : ∀ i, v.get i + t * alpha.get i = v'.get i + t * alpha'.get i) : v = v' := by
  have hmonotone := h.monotone h'
  have hsquares : t * Vec.dot (Vec.sub alpha alpha') (Vec.sub v v') =
      -∑ i, (v.get i - v'.get i) ^ 2 := by
    rw [Vec.dot_eq_dotProduct, dotProduct, mul_sum, ← sum_neg_distrib]
    apply sum_congr rfl
    intro i _
    simp only [Vec.get_sub]
    linear_combination (v.get i - v'.get i) * hsum i
  have hnonpos : ∑ i, (v.get i - v'.get i) ^ 2 ≤ 0 := by
    have hscaled := mul_nonneg ht.le hmonotone
    linarith
  have hzero := (sum_eq_zero_iff_of_nonneg fun i _ => sq_nonneg _).mp
    (le_antisymm hnonpos (sum_nonneg fun i _ => sq_nonneg _))
  apply Vec.eq_of_get
  intro i
  exact sub_eq_zero.mp (pow_eq_zero_iff two_ne_zero |>.mp (hzero i (mem_univ i)))

private theorem softThreshold_spec (y threshold : ℝ) (hthreshold : 0 ≤ threshold) :
    |y - softThreshold y threshold| ≤ threshold ∧
      (y - softThreshold y threshold) * softThreshold y threshold =
        threshold * |softThreshold y threshold| := by
  simp only [softThreshold, Scalar.abs_eq_abs, Scalar.maxNaN_eq_max]
  rcases le_total |y| threshold with hsmall | hlarge
  · rw [max_eq_right (by linarith)]
    simpa using hsmall
  · rw [max_eq_left (by linarith)]
    rcases eq_or_ne y 0 with rfl | hy
    · simpa using hthreshold
    · have hmagnitude := Scalar.abs_sign y hy
      have hsquare := Scalar.sign_mul_sign y hy
      have htaken : y - Scalar.sign y * (|y| - threshold) =
          Scalar.sign y * threshold := by
        rw [mul_sub, Scalar.sign_mul_abs]
        ring
      rw [htaken, abs_mul, abs_mul, hmagnitude, abs_of_nonneg hthreshold,
        abs_of_nonneg (sub_nonneg.mpr hlarge)]
      refine ⟨by linarith, ?_⟩
      linear_combination threshold * (|y| - threshold) * hsquare

/-- What is taken off is bounded and paired before it is divided by the step. -/
private theorem isSubgradient_of_taken {p : Penalty ℝ n} {y v : Vec ℝ n} {t : ℝ}
    (ht : 0 < t)
    (hbound : ∀ chosen : Finset (Fin n), ∑ i ∈ chosen, |y.get i - v.get i| ≤
      t * ∑ k ∈ range chosen.card, p.factor k)
    (hpair : ∑ i, (y.get i - v.get i) * v.get i = t * p.value v) :
    p.IsSubgradient v (Vec.scale (1 / t) (Vec.sub y v)) := by
  constructor
  · intro chosen
    simp only [Vec.get_scale, Vec.get_sub, abs_mul, abs_of_pos (one_div_pos.mpr ht)]
    rw [← mul_sum, one_div, inv_mul_le_iff₀ ht]
    exact hbound chosen
  · simp only [Vec.dot_eq_dotProduct, dotProduct, Vec.get_scale, Vec.get_sub,
      mul_assoc]
    rw [← mul_sum, hpair, ← mul_assoc, one_div_mul_cancel ht.ne', one_mul]

private theorem prox_l1_isSubgradient {lam t : ℝ} (hlam : 0 ≤ lam) (ht : 0 < t)
    (y : Vec ℝ n) :
    (l1 lam).IsSubgradient ((l1 lam).prox y t)
      (Vec.scale (1 / t) (Vec.sub y ((l1 lam).prox y t))) := by
  have hthreshold : 0 ≤ t * lam := mul_nonneg ht.le hlam
  have hentry (i : Fin n) : ((l1 lam).prox y t).get i =
      softThreshold (y.get i) (t * lam) := by
    simp [prox]
  apply isSubgradient_of_taken ht
  · intro chosen
    have hsum := sum_le_card_nsmul chosen
      (fun i => |y.get i - ((l1 lam).prox y t).get i|) (t * lam)
      fun i _ => by
        rw [hentry]
        exact (softThreshold_spec _ _ hthreshold).1
    simp only [factor, sum_const, card_range, nsmul_eq_mul] at hsum ⊢
    linarith
  · simp only [value, Vec.norm1_eq_sum, hentry]
    rw [mul_sum, mul_sum]
    apply sum_congr rfl
    intro i _
    rw [(softThreshold_spec _ _ hthreshold).2]
    ring

/-- The sorted map meets the condition whichever way ties are put. -/
theorem proxAlong_isSubgradient {lam : Vec ℝ n} (hp : (sortedL1 lam).Falls) {t : ℝ}
    (ht : 0 < t) {y : Vec ℝ n} {places : Equiv.Perm (Fin n)} (hplaces : y.Ranks places) :
    (sortedL1 lam).IsSubgradient (proxAlong (List.ofFn places) y (Vec.scale t lam))
      (Vec.scale (1 / t)
        (Vec.sub y (proxAlong (List.ofFn places) y (Vec.scale t lam)))) := by
  have hnonneg (i : Fin n) : 0 ≤ (Vec.scale t lam).get i := by
    have hi := hp.nonneg i
    simp only [factor, Falling.extend_val] at hi
    simpa using mul_nonneg ht.le hi
  have hfalls : Antitone (Vec.scale t lam).get := by
    intro i j hij
    have hle := hp.antitone hij
    simp only [factor, Falling.extend_val] at hle
    simpa using mul_le_mul_of_nonneg_left hle ht.le
  apply isSubgradient_of_taken ht
  · intro chosen
    have htaken := sum_taken_le hplaces hnonneg hfalls chosen
    simpa only [Vec.extend_scale, mul_sum, factor] using htaken
  · rw [value_eq_sum, ranked_proxAlong hplaces hnonneg, sum_taken_mul hplaces hnonneg,
      mul_sum]
    apply sum_congr rfl
    intro k _
    rw [Vec.extend_scale, factor, mul_assoc]

/-- The optimality condition of the proximal map: what it takes off, divided
by the step, is a subgradient at the result. -/
theorem prox_isSubgradient (p : Penalty ℝ n) (hp : p.Falls) (y : Vec ℝ n) {t : ℝ}
    (ht : 0 < t) :
    p.IsSubgradient (p.prox y t) (Vec.scale (1 / t) (Vec.sub y (p.prox y t))) := by
  cases p with
  | l1 lam => exact prox_l1_isSubgradient (hp.nonneg 0) ht y
  | sortedL1 lam =>
      obtain ⟨places, horder, hplaces⟩ := Vec.exists_ranks y
      rw [prox, proxSorted, horder]
      exact proxAlong_isSubgradient hp ht hplaces

/-- The optimality condition has no other solution. -/
theorem prox_eq_iff (p : Penalty ℝ n) (hp : p.Falls) (y v : Vec ℝ n) {t : ℝ}
    (ht : 0 < t) :
    p.prox y t = v ↔ p.IsSubgradient v (Vec.scale (1 / t) (Vec.sub y v)) := by
  have hprox := p.prox_isSubgradient hp y ht
  constructor
  · rintro rfl
    exact hprox
  · intro hv
    apply hprox.weights_eq hv ht
    intro i
    simp only [Vec.get_scale, Vec.get_sub]
    field_simp
    ring

/-- The order of ties does not show in what comes out. -/
theorem proxAlong_eq_prox {lam : Vec ℝ n} (hp : (sortedL1 lam).Falls) {t : ℝ} (ht : 0 < t)
    {y : Vec ℝ n} {places : Equiv.Perm (Fin n)} (hplaces : y.Ranks places) :
    proxAlong (List.ofFn places) y (Vec.scale t lam) = (sortedL1 lam).prox y t :=
  ((prox_eq_iff _ hp y _ ht).mpr (proxAlong_isSubgradient hp ht hplaces)).symm

end Penalty

end SparseWeights
