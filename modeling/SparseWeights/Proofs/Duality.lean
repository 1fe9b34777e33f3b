import SparseWeights.Proofs.Penalty.Ball
import SparseWeights.Proofs.Program.Dual

/-!
Weak duality with a penalty. The Lagrangian bounds the dual objective at every
point; where the weights sum to one its last term is gone, and in the dual ball
its middle term is at most the penalty. What remains is the primal objective.
-/

namespace SparseWeights

variable {n : ℕ}

/-- A multiplier in the dual ball makes the dual objective a lower bound. -/
theorem Program.dualObjective?_le_of_inBall {program : Program ℝ n}
    (hprogram : program.Symmetric) {penalty : Penalty ℝ n} {alpha : Vec ℝ n}
    (hball : penalty.InBall alpha.get) {beta dual : ℝ}
    (hdual : program.dualObjective? alpha beta = some dual) {w : Vec ℝ n}
    (hw : Vec.total w = 1) :
    dual ≤ program.objective.value w + penalty.value w := by
  obtain ⟨dual', hdual', hbound⟩ :=
    program.dualObjective?_le_lagrangian hprogram alpha beta
  obtain rfl : dual' = dual := Option.some.inj (hdual'.symm.trans hdual)
  calc
    dual' ≤ program.lagrangian alpha beta w := hbound w
    _ = program.objective.value w + Vec.dot alpha w := by
          rw [Program.lagrangian, hw]
          ring
    _ ≤ program.objective.value w + penalty.value w := by
          have hpair := penalty.dot_le_value hball w
          linarith

/-- Weak duality: whatever passes the dual test of the penalty bounds the primal
objective of all weights that sum to one from below. -/
theorem weak_duality {program : Program ℝ n} (hprogram : program.Accepted)
    {penalty : Penalty ℝ n} (hpenalty : penalty.Accepted) {alpha : Vec ℝ n}
    (halpha : penalty.dualInfeasibility alpha = 0) (beta : ℝ) {w : Vec ℝ n}
    (hw : Vec.total w = 1) :
    ∃ dual, program.dualObjective? alpha beta = some dual ∧
      dual ≤ program.objective.value w + penalty.value w := by
  obtain ⟨dual, hdual, _⟩ :=
    program.dualObjective?_le_lagrangian hprogram.symmetric alpha beta
  have hball := (penalty.dualInfeasibility_eq_zero_iff hpenalty.falls alpha).mp halpha
  exact ⟨dual, hdual,
    Program.dualObjective?_le_of_inBall hprogram.symmetric hball hdual hw⟩

section Pair

open Matrix

noncomputable def pairDesign : Mat ℝ 2 2 := #v[#v[1, 0], #v[0, 1]]

noncomputable def pairResponse : Vec ℝ 2 := #v[1, 0]

noncomputable def pairPenalty : Penalty ℝ 2 := .sortedL1 #v[1 / 5, 1 / 10]

theorem pairDesign_toMatrix : Mat.toMatrix pairDesign = 1 := by
  ext i j
  fin_cases i <;> fin_cases j <;> rfl

theorem pair_total (a b : ℝ) : Vec.total (#v[a, b] : Vec ℝ 2) = a + b := by
  rw [Vec.total_eq_sum, Fin.sum_univ_two]
  rfl

theorem pair_dot (a b c d : ℝ) :
    Vec.dot (#v[a, b] : Vec ℝ 2) #v[c, d] = a * c + b * d := by
  rw [Vec.dot_eq_dotProduct, dotProduct, Fin.sum_univ_two]
  rfl

theorem eq_pair {v : Vec ℝ 2} {a b : ℝ} (hfirst : v.get 0 = a)
    (hsecond : v.get 1 = b) : v = #v[a, b] := by
  apply Vec.eq_of_get
  intro i
  fin_cases i
  · exact hfirst
  · exact hsecond

theorem exists_pairProgram :
    ∃ program : Program ℝ 2, program.Accepted ∧
      program.objective = .leastSquares pairDesign pairResponse := by
  obtain ⟨program, hobjective, hbuilt⟩ := Program.exists_regression pairDesign
    pairResponse (by simp [pairDesign_toMatrix])
  exact ⟨program, .regression _ _ hbuilt, hobjective⟩

/-- Any program for this objective has the identity for its quadratic part. -/
theorem pairProgram_spec {program : Program ℝ 2}
    (hobjective : program.objective = .leastSquares pairDesign pairResponse) :
    Mat.toMatrix program.quadratic = 1 ∧ program.linear = pairResponse ∧
      ∀ a b, program.objective.value #v[a, b] = ((1 - a) ^ 2 + b ^ 2) / 2 := by
  refine ⟨?_, ?_, ?_⟩
  · rw [program.quadratic_eq, hobjective, Objective.quadratic, Mat.toMatrix_gram,
      pairDesign_toMatrix, Matrix.transpose_one, Matrix.one_mul]
  · rw [program.linear_eq, hobjective, Objective.linear]
    apply Vec.eq_of_get
    intro i
    rw [Mat.mulVec_eq, Mat.toMatrix_transpose, pairDesign_toMatrix,
      Matrix.transpose_one, Matrix.one_mulVec]
  · intro a b
    have hresidual : Vec.sub pairResponse (Mat.mulVec pairDesign #v[a, b]) =
        #v[1 - a, 0 - b] := by
      apply eq_pair
      · rw [Vec.get_sub, Mat.mulVec_eq, pairDesign_toMatrix, Matrix.one_mulVec]
        rfl
      · rw [Vec.get_sub, Mat.mulVec_eq, pairDesign_toMatrix, Matrix.one_mulVec]
        rfl
    rw [hobjective, Objective.value, hresidual, pair_dot, Scalar.half_eq]
    ring

theorem pairPenalty_factor : pairPenalty.factor 0 = 1 / 5 ∧
    pairPenalty.factor 1 = 1 / 10 ∧ ∀ k, pairPenalty.factor (k + 2) = 0 := by
  simp [pairPenalty, Penalty.factor, Falling.extend, Vec.get_eq_getElem]

theorem pairPenalty_falls : pairPenalty.Falls := by
  obtain ⟨hzero, hone, hrest⟩ := pairPenalty_factor
  constructor
  · apply antitone_nat_of_succ_le
    intro k
    cases k with
    | zero =>
        rw [hzero, hone]
        norm_num
    | succ k =>
        cases k with
        | zero =>
            rw [hrest, hone]
            norm_num
        | succ k => rw [hrest, hrest]
  · intro k
    cases k with
    | zero =>
        rw [hzero]
        norm_num
    | succ k =>
        cases k with
        | zero =>
            rw [hone]
            norm_num
        | succ k => rw [hrest]

theorem pair_ranked {a b : ℝ} (hb : 0 ≤ b) (hab : b ≤ a) :
    Vec.ranked #v[a, b] 0 = a ∧ Vec.ranked #v[a, b] 1 = b := by
  have ha : 0 ≤ a := hb.trans hab
  have hplaces : Vec.Ranks #v[a, b] (Equiv.refl (Fin 2)) := by
    rw [Vec.Ranks, Fin.antitone_iff_succ_le]
    intro i
    obtain rfl : i = 0 := Subsingleton.elim i 0
    change |b| ≤ |a|
    rwa [abs_of_nonneg hb, abs_of_nonneg ha]
  rw [Vec.ranked_eq_extend hplaces]
  simp [Falling.extend, Vec.get_eq_getElem, abs_of_nonneg, ha, hb]

theorem pairPenalty_value {a b : ℝ} (hb : 0 ≤ b) (hab : b ≤ a) :
    pairPenalty.value #v[a, b] = 1 / 5 * a + 1 / 10 * b := by
  obtain ⟨hzero, hone, _⟩ := pairPenalty_factor
  obtain ⟨hfirst, hsecond⟩ := pair_ranked hb hab
  rw [Penalty.value_eq_sum, Finset.sum_range_succ, Finset.sum_range_one, hzero, hone,
    hfirst, hsecond]

theorem pairPenalty_inBall {a b : ℝ} (hb : 0 ≤ b) (hab : b ≤ a) (ha : a ≤ 1 / 5)
    (hsum : a + b ≤ 3 / 10) : pairPenalty.InBall (#v[a, b] : Vec ℝ 2).get := by
  obtain ⟨hzero, hone, _⟩ := pairPenalty_factor
  obtain ⟨hfirst, hsecond⟩ := pair_ranked hb hab
  rw [Penalty.inBall_iff_ranked]
  intro m hm
  interval_cases m
  · simp
  · simpa [hzero, hfirst] using ha
  · simp only [Finset.sum_range_succ, Finset.sum_range_zero, zero_add, hzero, hone,
      hfirst, hsecond]
    linarith

/-- The bound at even weights, from multipliers on the boundary of the ball. -/
theorem weak_duality_pair :
    ∃ program : Program ℝ 2, program.Accepted ∧
      program.objective = .leastSquares pairDesign pairResponse ∧
      pairPenalty.Accepted ∧
      pairPenalty.dualInfeasibility #v[1 / 5, 1 / 10] = 0 ∧
      ∃ dual, program.dualObjective? #v[1 / 5, 1 / 10] (-3 / 20) = some dual ∧
        dual ≤ program.objective.value #v[1 / 2, 1 / 2] +
          pairPenalty.value #v[1 / 2, 1 / 2] := by
  obtain ⟨program, hprogram, hobjective⟩ := exists_pairProgram
  have hball : pairPenalty.InBall (#v[1 / 5, 1 / 10] : Vec ℝ 2).get :=
    pairPenalty_inBall (by norm_num) (by norm_num) le_rfl (by norm_num)
  have halpha := (pairPenalty.dualInfeasibility_eq_zero_iff pairPenalty_falls _).mpr
    hball
  have hw : Vec.total (#v[1 / 2, 1 / 2] : Vec ℝ 2) = 1 := by
    rw [pair_total]
    norm_num
  have hpenalty := pairPenalty_falls.accepted two_pos
  exact ⟨program, hprogram, hobjective, hpenalty, halpha,
    weak_duality hprogram hpenalty halpha (-3 / 20) hw⟩

end Pair

end SparseWeights
