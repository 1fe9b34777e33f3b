import SparseWeights.Proofs.Penalty.Prox

/-!
Penalties that count every rank alike. Value, dual ball and proximal map are
determined by the factors of the `n` ranks, however they are computed. The dual
test is not: it measures by the largest magnitude in one case and by running
sums in the other, and the two agree inside the ball only. The case at hand is
one factor for all ranks and the same factor repeated.
-/

namespace SparseWeights.Penalty

open Finset

variable {n : ℕ}

/-- The factors of the ranks are the same. -/
def SameFactors (p p' : Penalty ℝ n) : Prop :=
  ∀ k < n, p.factor k = p'.factor k

namespace SameFactors

variable {p p' : Penalty ℝ n} (hfactors : p.SameFactors p')

include hfactors

theorem value_eq (w : Vec ℝ n) : p.value w = p'.value w := by
  rw [value_eq_sum, value_eq_sum]
  apply sum_congr rfl
  intro k hk
  rw [hfactors k (mem_range.mp hk)]

theorem inBall_iff (alpha : Fin n → ℝ) : p.InBall alpha ↔ p'.InBall alpha := by
  have hsum (chosen : Finset (Fin n)) :
      ∑ k ∈ range chosen.card, p.factor k = ∑ k ∈ range chosen.card, p'.factor k := by
    apply sum_congr rfl
    intro k hk
    have hcard : chosen.card ≤ n := by
      simpa using card_le_univ chosen
    exact hfactors k ((mem_range.mp hk).trans_le hcard)
  simp only [InBall, hsum]

theorem isSubgradient_iff (v alpha : Vec ℝ n) :
    p.IsSubgradient v alpha ↔ p'.IsSubgradient v alpha := by
  constructor
  · rintro ⟨hball, htight⟩
    exact ⟨(hfactors.inBall_iff _).mp hball, htight.trans (hfactors.value_eq v)⟩
  · rintro ⟨hball, htight⟩
    exact ⟨(hfactors.inBall_iff _).mpr hball, htight.trans (hfactors.value_eq v).symm⟩

/-- The proximal maps solve the same optimality condition. -/
theorem prox_eq (hp : p.Falls) (hp' : p'.Falls) (y : Vec ℝ n) {t : ℝ} (ht : 0 < t) :
    p.prox y t = p'.prox y t := by
  rw [p.prox_eq_iff hp y _ ht, hfactors.isSubgradient_iff]
  exact p'.prox_isSubgradient hp' y ht

/-- In the ball there is nothing for either dual test to measure. -/
theorem dualInfeasibility_eq (hp : p.Falls) (hp' : p'.Falls) {alpha : Vec ℝ n}
    (hball : p.InBall alpha.get) :
    p.dualInfeasibility alpha = p'.dualInfeasibility alpha := by
  have hball' := (hfactors.inBall_iff alpha.get).mp hball
  rw [(p.dualInfeasibility_eq_zero_iff hp alpha).mpr hball,
    (p'.dualInfeasibility_eq_zero_iff hp' alpha).mpr hball']

end SameFactors

theorem sameFactors_replicate (lam : ℝ) :
    (l1 lam).SameFactors (sortedL1 (Vector.replicate n lam)) := by
  intro k hk
  simp [factor, Falling.extend, hk]

theorem l1_falls {lam : ℝ} (hlam : 0 ≤ lam) : (l1 (n := n) lam).Falls :=
  ⟨antitone_const, fun _ => hlam⟩

theorem replicate_falls {lam : ℝ} (hlam : 0 ≤ lam) :
    (sortedL1 (Vector.replicate n lam)).Falls := by
  apply sortedL1_falls
  · intro i j _
    simp
  · intro i
    simpa using hlam

/-- The penalty that a list with a single factor gives. -/
theorem make_l1 {lam : ℝ} (hlam : 0 ≤ lam) (dimension : Option Int) :
    (PenaltySpec.make .l1 [lam] dimension >>= fun spec => spec.fit n) =
      .ok (l1 lam) := by
  simp [PenaltySpec.make, PenaltySpec.ofFactor, PenaltySpec.fit, hlam, bind, Except.bind]

/-- The penalty that a list with the factor repeated for every weight gives. -/
theorem make_replicate (hn : 0 < n) {lam : ℝ} (hlam : 0 ≤ lam) :
    (PenaltySpec.make .sortedL1 (List.replicate n lam) (some n) >>= fun spec =>
      spec.fit n) = .ok (sortedL1 (Vector.replicate n lam)) := by
  have hascends : PenaltySpec.ascends (List.replicate n lam) = false := by
    rw [ascends_eq_false_iff, List.pairwise_replicate]
    exact Or.inr le_rfl
  have hnegative : ((List.replicate n lam).any fun x => decide (x < 0)) = false := by
    simp [hlam]
  have hmake : PenaltySpec.make .sortedL1 (List.replicate n lam) (some n) =
      .ok (.sortedL1 (List.replicate n lam)) := by
    simp [PenaltySpec.make, PenaltySpec.ofFactors, hascends, hnegative, hn.ne']
  have hfit : (PenaltySpec.sortedL1 (List.replicate n lam)).fit n =
      .ok (sortedL1 (Vector.replicate n lam)) := by
    simp [PenaltySpec.fit]
  rw [hmake]
  exact hfit

end SparseWeights.Penalty
