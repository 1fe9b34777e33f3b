import SparseWeights.Proofs.Penalty.Relabel

/-!
The symmetries of the sorted proximal map. A penalty reads magnitudes, which have
no signs, so its proximal map commutes with signs as it does with names. Where
magnitudes are tied, several orders of the places are falling ones. The map may run
along any of them: tied places then swap thresholds, and pooling makes up for it.
Neither fact is proved by following the two runs. Both outcomes satisfy one
optimality condition, which speaks of no order and has one solution.
-/

namespace SparseWeights

variable {n : ℕ}

namespace Vec

/-- The vector with a sign put to every entry. -/
noncomputable def withSigns (signs : Fin n → ℤˣ) (v : Vec ℝ n) : Vec ℝ n :=
  Vector.ofFn fun i => ((signs i : ℤ) : ℝ) * v.get i

variable (signs : Fin n → ℤˣ) (u v : Vec ℝ n)

@[simp] theorem get_withSigns (i : Fin n) :
    (withSigns signs v).get i = ((signs i : ℤ) : ℝ) * v.get i := by
  simp [withSigns]

theorem abs_get_withSigns (i : Fin n) : |(withSigns signs v).get i| = |v.get i| := by
  rw [get_withSigns, abs_mul, abs_unit_intCast, one_mul]

@[simp] theorem magnitudes_withSigns : magnitudes (withSigns signs v) = magnitudes v := by
  apply eq_of_get
  intro i
  rw [get_magnitudes, get_magnitudes]
  exact abs_get_withSigns signs v i

theorem withSigns_sub :
    withSigns signs (sub u v) = sub (withSigns signs u) (withSigns signs v) := by
  apply eq_of_get
  intro i
  simp only [get_withSigns, get_sub]
  ring

theorem withSigns_scale (a : ℝ) :
    withSigns signs (scale a v) = scale a (withSigns signs v) := by
  apply eq_of_get
  intro i
  simp only [get_withSigns, get_scale]
  ring

theorem dot_withSigns : dot (withSigns signs u) (withSigns signs v) = dot u v := by
  rw [dot_eq_dotProduct, dot_eq_dotProduct]
  apply Finset.sum_congr rfl
  intro i _
  have hsquare : ((signs i : ℤ) : ℝ) * ((signs i : ℤ) : ℝ) = 1 := by
    rw [← abs_mul_abs_self, abs_unit_intCast, one_mul]
  rw [get_withSigns, get_withSigns]
  linear_combination u.get i * v.get i * hsquare

end Vec

namespace Penalty

variable (signs : Fin n → ℤˣ)

theorem value_withSigns (p : Penalty ℝ n) (w : Vec ℝ n) :
    p.value (Vec.withSigns signs w) = p.value w := by
  cases p with
  | l1 lam => rw [value, value, Vec.norm1, Vec.magnitudes_withSigns, Vec.norm1]
  | sortedL1 lam =>
      rw [value, value, Vec.descending, Vec.magnitudes_withSigns, Vec.descending]

theorem IsSubgradient.withSigns {p : Penalty ℝ n} {v alpha : Vec ℝ n}
    (h : p.IsSubgradient v alpha) :
    p.IsSubgradient (Vec.withSigns signs v) (Vec.withSigns signs alpha) := by
  constructor
  · intro chosen
    simp only [Vec.abs_get_withSigns]
    exact h.ball chosen
  · rw [Vec.dot_withSigns, value_withSigns, h.tight]

/-- The proximal map commutes with signs. -/
theorem prox_withSigns (p : Penalty ℝ n) (hp : p.Falls) (y : Vec ℝ n) {t : ℝ}
    (ht : 0 < t) :
    p.prox (Vec.withSigns signs y) t = Vec.withSigns signs (p.prox y t) := by
  rw [p.prox_eq_iff hp _ _ ht, ← Vec.withSigns_sub, ← Vec.withSigns_scale]
  exact (p.prox_isSubgradient hp y ht).withSigns signs

/-- The sorted map with given thresholds is the proximal map of the penalty that
has them as factors. -/
theorem proxSorted_eq_prox (y thresholds : Vec ℝ n) :
    proxSorted y thresholds = (sortedL1 thresholds).prox y 1 := by
  rw [prox, Vec.scale_one]

end Penalty

/-- For thresholds that fall and are not negative the sorted map commutes with names
and signs, and every order of the places by magnitude gives what the stable one does. -/
theorem proxSorted_symmetries {thresholds : Vec ℝ n}
    (hnonneg : ∀ i, 0 ≤ thresholds.get i) (hfalls : Antitone thresholds.get)
    (y : Vec ℝ n) :
    (∀ (signs : Fin n → ℤˣ) (names : Equiv.Perm (Fin n)),
        proxSorted (Vec.withSigns signs (Vec.relabel names y)) thresholds =
          Vec.withSigns signs (Vec.relabel names (proxSorted y thresholds))) ∧
      ∀ order : List (Fin n), order.Perm (List.finRange n) →
        (order.Pairwise fun i j => |y.get j| ≤ |y.get i|) →
        proxAlong order y thresholds = proxSorted y thresholds := by
  have hpenalty := Penalty.sortedL1_falls hfalls hnonneg
  constructor
  · intro signs names
    rw [Penalty.proxSorted_eq_prox, Penalty.proxSorted_eq_prox,
      Penalty.prox_withSigns signs _ hpenalty _ one_pos,
      Penalty.prox_relabel names _ hpenalty _ one_pos]
  · intro order hperm hsorted
    obtain ⟨places, rfl, hplaces⟩ := Vec.exists_ranks_of_pairwise hperm hsorted
    have halong := Penalty.proxAlong_eq_prox hpenalty one_pos hplaces
    rwa [Vec.scale_one, ← Penalty.proxSorted_eq_prox] at halong

/-- Two entries of one magnitude, with names and signs turned round, and taken in the
order that is not stable. -/
theorem proxSorted_symmetries_pair :
    (∀ i, 0 ≤ (#v[1 / 5, 1 / 10] : Vec ℝ 2).get i) ∧
      Antitone (#v[1 / 5, 1 / 10] : Vec ℝ 2).get ∧
      proxSorted (Vec.withSigns ![1, -1] (Vec.relabel (Equiv.swap 0 1) #v[1, -1]))
          (#v[1 / 5, 1 / 10] : Vec ℝ 2) =
        Vec.withSigns ![1, -1]
          (Vec.relabel (Equiv.swap 0 1) (proxSorted #v[1, -1] #v[1 / 5, 1 / 10])) ∧
      proxAlong [1, 0] #v[1, -1] (#v[1 / 5, 1 / 10] : Vec ℝ 2) =
        proxSorted #v[1, -1] #v[1 / 5, 1 / 10] := by
  have hnonneg : ∀ i, 0 ≤ (#v[1 / 5, 1 / 10] : Vec ℝ 2).get i := by
    intro i
    fin_cases i
    · simp [Vec.get_eq_getElem]
    · simp [Vec.get_eq_getElem]
  have hfalls : Antitone (#v[1 / 5, 1 / 10] : Vec ℝ 2).get := by
    rw [Fin.antitone_iff_succ_le]
    intro i
    obtain rfl : i = 0 := Subsingleton.elim i 0
    change (1 / 10 : ℝ) ≤ 1 / 5
    norm_num
  obtain ⟨hcommutes, hties⟩ := proxSorted_symmetries hnonneg hfalls #v[1, -1]
  have horder : ([1, 0] : List (Fin 2)).Perm (List.finRange 2) := by
    decide
  refine ⟨hnonneg, hfalls, hcommutes ![1, -1] (Equiv.swap 0 1), hties [1, 0] horder ?_⟩
  simp [Vec.get_eq_getElem]

end SparseWeights
