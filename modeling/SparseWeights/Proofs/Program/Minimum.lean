import SparseWeights.Proofs.Duality

/-!
The dual objective as a minimum. An accepted program has a positive definite
quadratic part, so the stationarity system has one solution, and the Lagrangian
takes the dual value there and a larger one everywhere else.
-/

namespace SparseWeights

open Matrix

variable {n : ℕ}

namespace Program

variable {p : Program ℝ n}

/-- Two solutions of one stationarity system are the same, and it has one. -/
theorem Symmetric.mulVec_eq_iff (hp : p.Symmetric) (x b : Fin n → ℝ) :
    Mat.toMatrix p.quadratic *ᵥ x = b ↔ x = (Mat.toMatrix p.quadratic)⁻¹ *ᵥ b := by
  have hinjective : Function.Injective (Mat.toMatrix p.quadratic).mulVec := by
    intro u v huv
    by_contra hne
    have hpos := Factor.quadratic_pos_of_symmetric p.factor_eq hp (sub_ne_zero.mpr hne)
    rw [Matrix.mulVec_sub, huv, sub_self, dotProduct_zero] at hpos
    exact lt_irrefl 0 hpos
  have hunit := (Matrix.isUnit_iff_isUnit_det _).mp
    (Matrix.mulVec_injective_iff_isUnit.mp hinjective)
  constructor
  · rintro rfl
    rw [Matrix.mulVec_mulVec, Matrix.nonsing_inv_mul _ hunit, Matrix.one_mulVec]
  · rintro rfl
    rw [Matrix.mulVec_mulVec, Matrix.mul_nonsing_inv _ hunit, Matrix.one_mulVec]

/-- The Lagrangian takes the dual value exactly where it is stationary. -/
theorem Symmetric.lagrangian_eq_iff (hp : p.Symmetric) {alpha : Vec ℝ n} {beta dual : ℝ}
    (hdual : p.dualObjective? alpha beta = some dual) (w : Vec ℝ n) :
    p.lagrangian alpha beta w = dual ↔
      Mat.toMatrix p.quadratic *ᵥ w.get = (p.dualPoint alpha beta).get := by
  constructor
  · intro hw
    obtain ⟨x, hx, hvalue⟩ := p.exists_dualObjective?_eq hp alpha beta
    obtain rfl := Option.some.inj (hdual.symm.trans hvalue)
    have hform := p.lagrangian_eq_add_form hp hx w
    by_contra hne
    have hmoved : w.get - x.get ≠ 0 := by
      rintro heq
      exact hne (sub_eq_zero.mp heq ▸ hx)
    have hpos := Factor.quadratic_pos_of_symmetric p.factor_eq hp hmoved
    linarith
  · intro hw
    exact Option.some.inj ((p.dualObjective?_of_stationary hp hw).symm.trans hdual)

/-- The dual objective is the least value of the Lagrangian over all weights, and
only the solution of the stationarity system attains it; the objective is one
quadratic form in either problem. -/
theorem dualObjective?_isLeast (hp : p.Accepted) (alpha : Vec ℝ n) (beta : ℝ) :
    (∃ dual, p.dualObjective? alpha beta = some dual ∧
      IsLeast (Set.range (p.lagrangian alpha beta)) dual ∧
      ∀ w, p.lagrangian alpha beta w = dual ↔
        w.get = (Mat.toMatrix p.quadratic)⁻¹ *ᵥ (p.dualPoint alpha beta).get) ∧
    ∀ w, p.objective.value w = 1 / 2 * Vec.dot w (Mat.mulVec p.quadratic w) -
      Vec.dot p.linear w + p.objective.offset := by
  have hsymmetric := hp.symmetric
  constructor
  · obtain ⟨x, _, hattained⟩ := p.exists_dualObjective?_eq hsymmetric alpha beta
    obtain ⟨dual, hdual, hbelow⟩ := p.dualObjective?_le_lagrangian hsymmetric alpha beta
    obtain rfl := Option.some.inj (hdual.symm.trans hattained)
    refine ⟨_, hdual, ⟨⟨x, rfl⟩, ?_⟩, ?_⟩
    · rintro _ ⟨w, rfl⟩
      exact hbelow w
    · intro w
      rw [hsymmetric.lagrangian_eq_iff hdual, hsymmetric.mulVec_eq_iff]
  · intro w
    rw [Objective.value_eq, Vec.dot_eq_dotProduct, Vec.dot_eq_dotProduct, Mat.mulVec_eq,
      p.quadratic_eq, p.linear_eq]
    ring

/-- At multipliers on the boundary of the ball, where the least point is known. -/
theorem dualObjective?_isLeast_pair :
    ∃ p : Program ℝ 2, p.Accepted ∧
      p.objective = .leastSquares pairDesign pairResponse ∧
      p.dualObjective? #v[1 / 5, 1 / 10] (-3 / 20) =
        some (p.lagrangian #v[1 / 5, 1 / 10] (-3 / 20) #v[19 / 20, 1 / 20]) ∧
      IsLeast (Set.range (p.lagrangian #v[1 / 5, 1 / 10] (-3 / 20))) (79 / 400) := by
  obtain ⟨p, hp, hobjective⟩ := exists_pairProgram
  obtain ⟨hquadratic, hlinear, hvalue⟩ := pairProgram_spec hobjective
  obtain ⟨⟨dual, hdual, hleast, hattained⟩, _⟩ :=
    dualObjective?_isLeast hp #v[1 / 5, 1 / 10] (-3 / 20)
  have hpoint : (#v[19 / 20, 1 / 20] : Vec ℝ 2) = p.dualPoint #v[1 / 5, 1 / 10] (-3 / 20) := by
    apply Eq.symm
    apply eq_pair
    · rw [dualPoint_get, hlinear]
      simp [pairResponse, Vec.get_eq_getElem]
      norm_num
    · rw [dualPoint_get, hlinear]
      simp [pairResponse, Vec.get_eq_getElem]
      norm_num
  have hminimiser : p.lagrangian #v[1 / 5, 1 / 10] (-3 / 20) #v[19 / 20, 1 / 20] = dual := by
    rw [hattained, hquadratic, inv_one, Matrix.one_mulVec, hpoint]
  have hdualValue : dual = 79 / 400 := by
    rw [← hminimiser, lagrangian, hvalue, pair_dot, pair_total]
    norm_num
  exact ⟨p, hp, hobjective, hminimiser ▸ hdual, hdualValue ▸ hleast⟩

end Program

end SparseWeights
