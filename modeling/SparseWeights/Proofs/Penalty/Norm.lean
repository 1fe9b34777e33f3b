import SparseWeights.Proofs.Duality
import SparseWeights.Proofs.Penalty.Slack
import SparseWeights.Proofs.Penalty.Units

/-!
The penalty is the support function of the ball that the dual test decides. The
factors of the ranks, put back to the places of some weights with the signs of
those weights, form a vector of the ball that attains the penalty. Conversely, a
vector that gives no weights more than their penalty passes the test: what the ball
asks of chosen places is what weights of one at these places, and of zero at the
others, ask.
-/

namespace SparseWeights

open Finset

variable {n : ℕ}

theorem Vec.ranked_scale (a : ℝ) (w : Vec ℝ n) (k : ℕ) :
    Vec.ranked (Vec.scale a w) k = |a| * Vec.ranked w k := by
  obtain ⟨places, _, hplaces⟩ := Vec.exists_ranks w
  rw [Vec.ranked_eq_extend hplaces.scale, Vec.ranked_eq_extend hplaces]
  unfold Falling.extend
  split
  · simp [abs_mul]
  · simp

namespace Penalty

variable {p : Penalty ℝ n}

theorem value_scale (p : Penalty ℝ n) (a : ℝ) (w : Vec ℝ n) :
    p.value (Vec.scale a w) = |a| * p.value w := by
  rw [value_eq_sum, value_eq_sum, mul_sum]
  apply sum_congr rfl
  intro k _
  rw [Vec.ranked_scale]
  ring

/-- The factor of every rank at the place of that rank, with the sign of the
weight there. -/
noncomputable def signedFactors (p : Penalty ℝ n) (places : Equiv.Perm (Fin n))
    (w : Vec ℝ n) : Vec ℝ n :=
  Vector.ofFn fun i => Scalar.sign (w.get i) * p.factor (places.symm i)

theorem signedFactors_inBall (hp : p.Falls) (places : Equiv.Perm (Fin n))
    (w : Vec ℝ n) : p.InBall (p.signedFactors places w).get := by
  intro chosen
  have hentry (i : Fin n) :
      |(p.signedFactors places w).get i| ≤ p.factor (places.symm i) := by
    rw [signedFactors, Vec.get_ofFn, abs_mul, abs_of_nonneg (hp.nonneg _)]
    exact mul_le_of_le_one_left (hp.nonneg _) (Scalar.abs_sign_le_one _)
  exact (sum_le_sum fun i _ => hentry i).trans
    (Vec.sum_rank_le hp.antitone places chosen)

theorem dot_signedFactors {places : Equiv.Perm (Fin n)} {w : Vec ℝ n}
    (hplaces : w.Ranks places) : Vec.dot (p.signedFactors places w) w = p.value w := by
  have hentry (i : Fin n) : (p.signedFactors places w).get i * w.get i =
      p.factor (places.symm i) * |w.get i| := by
    rw [signedFactors, Vec.get_ofFn, ← Scalar.sign_mul_self]
    ring
  calc
    Vec.dot (p.signedFactors places w) w =
        ∑ i, p.factor (places.symm i) * |w.get i| := by
          rw [Vec.dot_eq_dotProduct]
          exact sum_congr rfl fun i _ => hentry i
    _ = ∑ k : Fin n, p.factor k * |w.get (places k)| := by
          rw [← Equiv.sum_comp places]
          simp
    _ = ∑ k ∈ range n, p.factor k * Vec.ranked w k := by
          rw [← Fin.sum_univ_eq_sum_range, Vec.ranked_eq_extend hplaces]
          simp
    _ = p.value w := (value_eq_sum p w).symm

/-- The penalty has a subgradient everywhere. -/
theorem exists_isSubgradient (hp : p.Falls) (w : Vec ℝ n) :
    ∃ alpha, p.IsSubgradient w alpha := by
  obtain ⟨places, _, hplaces⟩ := Vec.exists_ranks w
  exact ⟨p.signedFactors places w, signedFactors_inBall hp places w,
    dot_signedFactors hplaces⟩

/-- Weights of one in magnitude at chosen places, with the signs of a vector. -/
noncomputable def signsOn (chosen : Finset (Fin n)) (alpha : Vec ℝ n) : Vec ℝ n :=
  Vector.ofFn fun i => if i ∈ chosen then Scalar.sign (alpha.get i) else 0

theorem dot_signsOn (chosen : Finset (Fin n)) (alpha beta : Vec ℝ n) :
    Vec.dot beta (signsOn chosen alpha) =
      ∑ i ∈ chosen, beta.get i * Scalar.sign (alpha.get i) := by
  simp [Vec.dot_eq_dotProduct, dotProduct, signsOn]

/-- So many places cost no more than as many factors from the first one on. -/
theorem value_signsOn_le (hp : p.Falls) (chosen : Finset (Fin n)) (alpha : Vec ℝ n) :
    p.value (signsOn chosen alpha) ≤ ∑ k ∈ range chosen.card, p.factor k := by
  obtain ⟨beta, hball, htight⟩ := exists_isSubgradient hp (signsOn chosen alpha)
  calc
    p.value (signsOn chosen alpha) =
        ∑ i ∈ chosen, beta.get i * Scalar.sign (alpha.get i) := by
          rw [← htight, dot_signsOn]
    _ ≤ ∑ i ∈ chosen, |beta.get i| := by
          apply sum_le_sum
          intro i _
          refine (le_abs_self _).trans ?_
          rw [abs_mul]
          exact mul_le_of_le_one_right (abs_nonneg _) (Scalar.abs_sign_le_one _)
    _ ≤ ∑ k ∈ range chosen.card, p.factor k := hball chosen

theorem inBall_iff_forall_dot_le (hp : p.Falls) (alpha : Vec ℝ n) :
    p.InBall alpha.get ↔ ∀ w, Vec.dot alpha w ≤ p.value w := by
  constructor
  · exact p.dot_le_value
  · intro hdot chosen
    calc
      ∑ i ∈ chosen, |alpha.get i| = Vec.dot alpha (signsOn chosen alpha) := by
            rw [dot_signsOn]
            apply sum_congr rfl
            intro i _
            rw [mul_comm, Scalar.sign_mul_self]
      _ ≤ p.value (signsOn chosen alpha) := hdot _
      _ ≤ ∑ k ∈ range chosen.card, p.factor k := value_signsOn_le hp chosen alpha

/-- The dual test of an accepted penalty lets through exactly the vectors that give
no weights more than their penalty, and one of them gives as much. In consequence
the penalty satisfies the triangle inequality and takes factors by their magnitude. -/
theorem Accepted.dualInfeasibility_polar (hp : p.Accepted) :
    (∀ alpha, p.dualInfeasibility alpha = 0 ↔ ∀ w, Vec.dot alpha w ≤ p.value w) ∧
      (∀ w, ∃ alpha, p.dualInfeasibility alpha = 0 ∧ Vec.dot alpha w = p.value w) ∧
      (∀ u v, p.value (Vec.add u v) ≤ p.value u + p.value v) ∧
      ∀ a w, p.value (Vec.scale a w) = |a| * p.value w := by
  refine ⟨?_, ?_, ?_, p.value_scale⟩
  · intro alpha
    rw [p.dualInfeasibility_eq_zero_iff hp.falls, inBall_iff_forall_dot_le hp.falls]
  · intro w
    obtain ⟨alpha, halpha⟩ := exists_isSubgradient hp.falls w
    exact ⟨alpha, (isSubgradient_iff hp.falls).mp halpha⟩
  · intro u v
    apply value_le_add hp.falls
    intro i
    rw [Vec.get_add]
    exact abs_add_le _ _

/-- A vector on the boundary of the ball pairs with all weights to no more than their
penalty. One with the same largest entry does not pass the test, since it gives even
weights more. -/
theorem dualInfeasibility_polar_pair :
    pairPenalty.Accepted ∧
      (∀ w, Vec.dot #v[1 / 5, 1 / 10] w ≤ pairPenalty.value w) ∧
      pairPenalty.dualInfeasibility #v[1 / 5, 1 / 5] ≠ 0 := by
  have hpenalty := pairPenalty_falls.accepted two_pos
  obtain ⟨hpolar, _⟩ := hpenalty.dualInfeasibility_polar
  have hball : pairPenalty.InBall (#v[1 / 5, 1 / 10] : Vec ℝ 2).get :=
    pairPenalty_inBall (by norm_num) (by norm_num) le_rfl (by norm_num)
  refine ⟨hpenalty, ?_, ?_⟩
  · rw [← hpolar, dualInfeasibility_eq_zero_iff _ pairPenalty_falls]
    exact hball
  · intro hzero
    have heven := (hpolar _).mp hzero #v[1, 1]
    rw [pair_dot, pairPenalty_value zero_le_one le_rfl] at heven
    norm_num at heven

end Penalty

end SparseWeights
