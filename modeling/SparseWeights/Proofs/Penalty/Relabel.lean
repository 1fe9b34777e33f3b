import SparseWeights.Proofs.Linear.Relabel
import SparseWeights.Proofs.Penalty.Prox

/-!
Penalties do not see the names of the weights. The magnitudes in falling order
are the same under every name, so value and dual test are; the proximal map
renames its result. Where magnitudes are equal the map takes them in the order
of their places, so other names hand other thresholds to the same magnitudes on
the way. What comes out is fixed by the optimality condition alone, which has
one solution and speaks of no order.
-/

namespace SparseWeights

variable {n : ℕ} (names : Equiv.Perm (Fin n))

namespace Vec

/-- An order of the old places by magnitude is one of the new places. -/
theorem Ranks.relabel {v : Vec ℝ n} {places : Equiv.Perm (Fin n)} (h : v.Ranks places) :
    (Vec.relabel names v).Ranks (places.trans names.symm) := by
  simpa [Ranks] using h

@[simp] theorem descending_relabel (v : Vec ℝ n) :
    descending (relabel names v) = descending v := by
  obtain ⟨places, _, hplaces⟩ := exists_ranks v
  rw [descending_eq_ofFn hplaces, descending_eq_ofFn (hplaces.relabel names)]
  simp

end Vec

namespace Penalty

@[simp] theorem value_relabel (p : Penalty ℝ n) (w : Vec ℝ n) :
    p.value (Vec.relabel names w) = p.value w := by
  cases p with
  | l1 lam => rw [value, value, Vec.norm1_relabel]
  | sortedL1 lam => rw [value, value, Vec.descending_relabel]

@[simp] theorem dualInfeasibility_relabel (p : Penalty ℝ n) (alpha : Vec ℝ n) :
    p.dualInfeasibility (Vec.relabel names alpha) = p.dualInfeasibility alpha := by
  cases p with
  | l1 lam => rw [dualInfeasibility, dualInfeasibility, Vec.maxAbs_relabel]
  | sortedL1 lam => rw [dualInfeasibility, dualInfeasibility, Vec.descending_relabel]

theorem IsSubgradient.relabel {p : Penalty ℝ n} (hp : p.Falls) {v alpha : Vec ℝ n}
    (h : p.IsSubgradient v alpha) :
    p.IsSubgradient (Vec.relabel names v) (Vec.relabel names alpha) := by
  rw [isSubgradient_iff hp] at h ⊢
  rwa [dualInfeasibility_relabel, Vec.dot_relabel, value_relabel]

/-- The proximal map commutes with names, however ties are put. -/
theorem prox_relabel (p : Penalty ℝ n) (hp : p.Falls) (y : Vec ℝ n) {t : ℝ}
    (ht : 0 < t) : p.prox (Vec.relabel names y) t = Vec.relabel names (p.prox y t) := by
  rw [p.prox_eq_iff hp _ _ ht, ← Vec.relabel_sub, ← Vec.relabel_scale]
  exact (p.prox_isSubgradient hp y ht).relabel names hp

end Penalty

end SparseWeights
