import SparseWeights.Proofs.Penalty.Prox

/-!
How far the penalty of some weights can be from what a dual vector gives for
them, if the two agree at other weights. A penalty satisfies the triangle
inequality, since the sums of the first ranks do, and no rank counts with more
than the first factor. So the distance is at most twice that factor times the sum
of the differences of the weights.
-/

namespace SparseWeights

open Finset

variable {n : ℕ} {u v w : Vec ℝ n}

theorem Vec.sum_ranked_le_add (h : ∀ i, |w.get i| ≤ |u.get i| + |v.get i|) {m : ℕ}
    (hm : m ≤ n) :
    ∑ k ∈ range m, Vec.ranked w k ≤
      ∑ k ∈ range m, (Vec.ranked u k + Vec.ranked v k) := by
  obtain ⟨places, _, hplaces⟩ := Vec.exists_ranks w
  obtain ⟨chosen, hcard, hsum⟩ :=
    Vec.exists_chosen_first (fun i => |w.get i|) places hm
  subst hcard
  calc
    ∑ k ∈ range chosen.card, Vec.ranked w k = ∑ i ∈ chosen, |w.get i| := by
          rw [Vec.ranked_eq_extend hplaces, hsum]
    _ ≤ ∑ i ∈ chosen, (|u.get i| + |v.get i|) := sum_le_sum fun i _ => h i
    _ ≤ ∑ k ∈ range chosen.card, (Vec.ranked u k + Vec.ranked v k) := by
          rw [sum_add_distrib, sum_add_distrib]
          exact add_le_add (Vec.sum_abs_le_sum_ranked u chosen)
            (Vec.sum_abs_le_sum_ranked v chosen)

namespace Penalty

variable {p : Penalty ℝ n} (hp : p.Falls)

include hp

/-- The triangle inequality, for any weights that are dominated entry by entry. -/
theorem value_le_add (h : ∀ i, |w.get i| ≤ |u.get i| + |v.get i|) :
    p.value w ≤ p.value u + p.value v := by
  have hranks := Falling.sum_mul_le_sum_mul hp.antitone (hp.nonneg n)
    fun m hm => Vec.sum_ranked_le_add h hm
  simp only [add_mul, sum_add_distrib] at hranks
  simpa only [value_eq_sum, mul_comm] using hranks

/-- No rank counts with more than the first factor. -/
theorem value_le_norm1 (w : Vec ℝ n) : p.value w ≤ p.factor 0 * Vec.norm1 w := by
  rw [value_eq_sum, Vec.norm1_eq_sum, ← Vec.sum_ranked, mul_sum]
  apply sum_le_sum
  intro k _
  exact mul_le_mul_of_nonneg_right (hp.antitone (Nat.zero_le k)) (Vec.ranked_nonneg w k)

/-- What a subgradient at `v` gives for `w` is at most the penalty of `w`, and less
than that by no more than the distance of `w` from `v` allows. -/
theorem IsSubgradient.abs_value_sub_dot_le {alpha : Vec ℝ n}
    (hsubgradient : p.IsSubgradient v alpha) (w : Vec ℝ n) :
    |p.value w - Vec.dot alpha w| ≤ 2 * (p.factor 0 * Vec.norm1 (Vec.sub w v)) := by
  have hbelow := p.dot_le_value hsubgradient.ball w
  have htriangle : p.value w ≤ p.value v + p.value (Vec.sub w v) := by
    apply value_le_add hp
    intro i
    rw [Vec.get_sub, add_comm]
    exact sub_le_iff_le_add.mp (abs_sub_abs_le_abs_sub _ _)
  have hback := p.dot_le_value hsubgradient.ball (Vec.sub v w)
  rw [Vec.dot_sub, hsubgradient.tight] at hback
  have hreversed : Vec.norm1 (Vec.sub v w) = Vec.norm1 (Vec.sub w v) := by
    simp only [Vec.norm1_eq_sum, Vec.get_sub, abs_sub_comm]
  have hforward := value_le_norm1 hp (Vec.sub w v)
  have hbackward := value_le_norm1 hp (Vec.sub v w)
  rw [hreversed] at hbackward
  rw [abs_of_nonneg (sub_nonneg.mpr hbelow)]
  linarith

end Penalty

end SparseWeights
