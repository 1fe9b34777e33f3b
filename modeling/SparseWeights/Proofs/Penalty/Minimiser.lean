import SparseWeights.Proofs.Duality
import SparseWeights.Proofs.Penalty.Prox

/-!
The proximal map as a minimiser. Its optimality condition puts the penalty above
a tangent whose slope is what the map takes off, and the square completes to the
distance from the proximal point: every other point costs more, by at least half
the square of that distance.
-/

namespace SparseWeights

variable {n : ℕ}

namespace Penalty

/-- What moving from `y` to `v` costs: half the squared distance, and the
penalty of `v` with the weight `t`. -/
noncomputable def proximalCost (p : Penalty ℝ n) (y : Vec ℝ n) (t : ℝ)
    (v : Vec ℝ n) : ℝ :=
  Scalar.half * Vec.distanceSq y v + t * p.value v

/-- Away from the proximal point the cost grows by at least half the squared
distance. -/
theorem proximalCost_add_le {p : Penalty ℝ n} (hp : p.Falls) (y : Vec ℝ n) {t : ℝ}
    (ht : 0 < t) (v : Vec ℝ n) :
    p.proximalCost y t (p.prox y t) + 1 / 2 * Vec.distanceSq v (p.prox y t) ≤
      p.proximalCost y t v := by
  set u := p.prox y t with hu
  have htangent := (p.prox_isSubgradient hp y ht).value_add_dot_le v
  have hslope : t * Vec.dot (Vec.scale (1 / t) (Vec.sub y u)) (Vec.sub v u) =
      Vec.dot (Vec.sub y u) (Vec.sub v u) := by
    simp only [Vec.dot_eq_dotProduct, dotProduct, Vec.get_scale, Finset.mul_sum]
    apply Finset.sum_congr rfl
    intro i _
    field_simp
  have hscaled := mul_le_mul_of_nonneg_left htangent ht.le
  rw [← hu, mul_add, hslope] at hscaled
  rw [proximalCost, proximalCost, Scalar.half_eq, Vec.distanceSq_eq_add y u v]
  linarith

/-- The proximal map of every accepted penalty gives the one point of least cost. -/
theorem proximalCost_prox_lt {p : Penalty ℝ n} (hp : p.Accepted) (y : Vec ℝ n) {t : ℝ}
    (ht : 0 < t) {v : Vec ℝ n} (hv : v ≠ p.prox y t) :
    p.proximalCost y t (p.prox y t) < p.proximalCost y t v := by
  have hgrowth := proximalCost_add_le hp.falls y ht v
  have hdistance : 0 < Vec.distanceSq v (p.prox y t) :=
    (Vec.distanceSq_nonneg _ _).lt_of_ne' (Vec.distanceSq_eq_zero_iff.not.mpr hv)
  linarith

/-- Two entries of one magnitude lose different thresholds and are pooled; staying
in place costs more. -/
theorem proximalCost_prox_lt_pair :
    pairPenalty.Accepted ∧ (0 : ℝ) < 1 ∧
      pairPenalty.prox #v[1, 1] 1 = #v[17 / 20, 17 / 20] ∧
      pairPenalty.proximalCost #v[1, 1] 1 #v[17 / 20, 17 / 20] <
        pairPenalty.proximalCost #v[1, 1] 1 #v[1, 1] := by
  have hpenalty := pairPenalty_falls.accepted two_pos
  have hprox : pairPenalty.prox #v[1, 1] 1 = #v[17 / 20, 17 / 20] := by
    have hslope : Vec.scale (1 / 1) (Vec.sub #v[1, 1] #v[17 / 20, 17 / 20]) =
        (#v[3 / 20, 3 / 20] : Vec ℝ 2) := by
      apply eq_pair
      · rw [Vec.get_scale, Vec.get_sub]
        change 1 / 1 * ((1 : ℝ) - 17 / 20) = 3 / 20
        norm_num
      · rw [Vec.get_scale, Vec.get_sub]
        change 1 / 1 * ((1 : ℝ) - 17 / 20) = 3 / 20
        norm_num
    rw [pairPenalty.prox_eq_iff pairPenalty_falls _ _ one_pos, hslope]
    constructor
    · exact pairPenalty_inBall (by norm_num) le_rfl (by norm_num) (by norm_num)
    · rw [pair_dot, pairPenalty_value (by norm_num) le_rfl]
      norm_num
  have hmoved : (#v[1, 1] : Vec ℝ 2) ≠ pairPenalty.prox #v[1, 1] 1 := by
    intro h
    have hfirst := congrArg (fun v => Vector.get v 0) (h.trans hprox)
    simp [Vec.get_eq_getElem] at hfirst
    norm_num at hfirst
  refine ⟨hpenalty, one_pos, hprox, ?_⟩
  have hless := proximalCost_prox_lt hpenalty #v[1, 1] one_pos hmoved
  rwa [hprox] at hless

end Penalty

end SparseWeights
