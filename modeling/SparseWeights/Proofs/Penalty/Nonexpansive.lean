import SparseWeights.Proofs.Duality
import SparseWeights.Proofs.Penalty.Prox
import SparseWeights.Proofs.Penalty.Units

/-!
The proximal maps do not move points apart. What the map takes off a point is a
subgradient of the penalty with the step for its unit; a step of zero leaves no
penalty and takes nothing off. Subgradients are monotone: the parts taken off two
points do not point against the way between the results. So the way between the
points covers the way between the results. Nothing is said about how the two points
are sorted and pooled, which may differ between them.
-/

namespace SparseWeights.Penalty

variable {n : ℕ} {p : Penalty ℝ n} {t : ℝ}

theorem factor_inUnits (p : Penalty ℝ n) (t : ℝ) (k : ℕ) :
    (p.inUnits t).factor k = t * p.factor k := by
  cases p with
  | l1 lam => rfl
  | sortedL1 lam => exact Vec.extend_scale t lam k

theorem Falls.inUnits (hp : p.Falls) (ht : 0 ≤ t) : (p.inUnits t).Falls := by
  constructor
  · intro j k hjk
    rw [factor_inUnits, factor_inUnits]
    exact mul_le_mul_of_nonneg_left (hp.antitone hjk) ht
  · intro k
    rw [factor_inUnits]
    exact mul_nonneg ht (hp.nonneg k)

/-- The step may as well be part of the penalty. -/
theorem prox_inUnits_one (p : Penalty ℝ n) (y : Vec ℝ n) (t : ℝ) :
    (p.inUnits t).prox y 1 = p.prox y t := by
  cases p with
  | l1 lam => rw [inUnits, prox, one_mul, prox]
  | sortedL1 lam => rw [inUnits, prox, Vec.scale_one, prox]

/-- What the map takes off, for any step that is not negative. -/
theorem sub_prox_isSubgradient (hp : p.Falls) (ht : 0 ≤ t) (y : Vec ℝ n) :
    (p.inUnits t).IsSubgradient (p.prox y t) (Vec.sub y (p.prox y t)) := by
  have htaken := (p.inUnits t).prox_isSubgradient (hp.inUnits ht) y one_pos
  rwa [prox_inUnits_one, div_one, Vec.scale_one] at htaken

/-- The way between two proximal points is covered by the way between the points, in
direction and therefore in length. -/
theorem Accepted.prox_firmly_nonexpansive (hp : p.Accepted) (ht : 0 ≤ t) (y y' : Vec ℝ n) :
    Vec.distanceSq (p.prox y t) (p.prox y' t) ≤
        Vec.dot (Vec.sub (p.prox y t) (p.prox y' t)) (Vec.sub y y') ∧
      √(Vec.distanceSq (p.prox y t) (p.prox y' t)) ≤ √(Vec.distanceSq y y') := by
  set way := Vec.sub (p.prox y t) (p.prox y' t) with hway
  have hfirm : Vec.dot way way ≤ Vec.dot way (Vec.sub y y') := by
    have hmonotone := (sub_prox_isSubgradient hp.falls ht y).monotone
      (sub_prox_isSubgradient hp.falls ht y')
    rw [← hway, Vec.sub_dot, Vec.sub_dot, Vec.sub_dot] at hmonotone
    have hlength : Vec.dot way way =
        Vec.dot (p.prox y t) way - Vec.dot (p.prox y' t) way := Vec.sub_dot _ _ way
    have hproduct : Vec.dot way (Vec.sub y y') = Vec.dot y way - Vec.dot y' way := by
      rw [Vec.dot_comm, Vec.sub_dot]
    linarith
  exact ⟨hfirm, Real.sqrt_le_sqrt (Vec.dot_self_le_of_le_dot hfirm)⟩

/-- Two points on either side of a change of groups: the entries of the first are
pooled, those of the second are not, and one of them ends at zero. -/
theorem prox_firmly_nonexpansive_pair :
    pairPenalty.Accepted ∧ (0 : ℝ) ≤ 1 ∧
      Vec.distanceSq (pairPenalty.prox #v[1, 1] 1) (pairPenalty.prox #v[1, 0] 1) ≤
        Vec.dot (Vec.sub (pairPenalty.prox #v[1, 1] 1) (pairPenalty.prox #v[1, 0] 1))
          (Vec.sub #v[1, 1] #v[1, 0]) ∧
      √(Vec.distanceSq (pairPenalty.prox #v[1, 1] 1) (pairPenalty.prox #v[1, 0] 1)) ≤
        √(Vec.distanceSq #v[1, 1] #v[1, 0]) := by
  have hpenalty := pairPenalty_falls.accepted two_pos
  exact ⟨hpenalty, zero_le_one, hpenalty.prox_firmly_nonexpansive zero_le_one _ _⟩

end SparseWeights.Penalty
