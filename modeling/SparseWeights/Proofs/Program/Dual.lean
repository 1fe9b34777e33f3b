import SparseWeights.Proofs.Linear.Cholesky
import SparseWeights.Proofs.Program.Accepted

/-!
The dual objective is the least value of the Lagrangian. Both objectives are
the form `wᵀ Q w / 2 - cᵀ w` plus an offset, though each is evaluated in a shape
of its own. For a symmetric `Q` the stored factor solves its systems, and at the
solution the Lagrangian takes the dual value; every other point lies above it
by half the form of the difference.
-/

namespace SparseWeights

open Matrix

variable {n : ℕ}

/-- The two shapes of the objective agree with the quadratic form. -/
theorem Objective.value_eq (o : Objective ℝ n) (w : Vec ℝ n) :
    o.value w = w.get ⬝ᵥ (Mat.toMatrix o.quadratic *ᵥ w.get) / 2 -
      o.linear.get ⬝ᵥ w.get + o.offset := by
  cases o with
  | leastSquares X Y =>
      have hresidual : (Vec.sub Y (Mat.mulVec X w)).get =
          Y.get - Mat.toMatrix X *ᵥ w.get := by
        funext i
        rw [Vec.get_sub, Mat.mulVec_eq]
        rfl
      have hlinear : ((Mat.toMatrix X)ᵀ *ᵥ Y.get) ⬝ᵥ w.get =
          Y.get ⬝ᵥ (Mat.toMatrix X *ᵥ w.get) := by
        rw [Matrix.mulVec_transpose, Matrix.dotProduct_mulVec]
      simp only [value, quadratic, linear, offset, Vec.dot_eq_dotProduct,
        Scalar.half_eq, hresidual, Mat.form_gram, Mat.mulVec_eq,
        Mat.toMatrix_transpose, hlinear]
      rw [sub_dotProduct, dotProduct_sub, dotProduct_sub,
        dotProduct_comm (Mat.toMatrix X *ᵥ w.get) Y.get]
      ring
  | meanVariance Sigma mu phi =>
      simp only [value, quadratic, linear, offset, Vec.dot_eq_dotProduct,
        Scalar.half_eq, Mat.toMatrix_scale, Mat.mulVec_eq, Matrix.smul_mulVec,
        dotProduct_smul, smul_eq_mul]
      ring

/-- The form of a symmetric matrix may be taken from either side. -/
theorem dotProduct_mulVec_comm {A : Matrix (Fin n) (Fin n) ℝ} (hA : A.IsSymm)
    (x y : Fin n → ℝ) : x ⬝ᵥ (A *ᵥ y) = y ⬝ᵥ (A *ᵥ x) := by
  rw [Matrix.dotProduct_mulVec, ← Matrix.mulVec_transpose, hA.eq, dotProduct_comm]

namespace Program

variable (p : Program ℝ n)

/-- The objective with the two constraints weighted by their multipliers; the
multiplier `alpha` takes the place of the penalty. -/
noncomputable def lagrangian (alpha : Vec ℝ n) (beta : ℝ) (w : Vec ℝ n) : ℝ :=
  p.objective.value w + Vec.dot alpha w + beta * (Vec.total w - 1)

theorem dualPoint_get (alpha : Vec ℝ n) (beta : ℝ) (i : Fin n) :
    (p.dualPoint alpha beta).get i = p.linear.get i - alpha.get i - beta := by
  simp [dualPoint]

/-- The Lagrangian as a quadratic form at the dual point. -/
theorem lagrangian_eq (alpha : Vec ℝ n) (beta : ℝ) (w : Vec ℝ n) :
    p.lagrangian alpha beta w =
      w.get ⬝ᵥ (Mat.toMatrix p.quadratic *ᵥ w.get) / 2 -
        (p.dualPoint alpha beta).get ⬝ᵥ w.get + p.objective.offset - beta := by
  have hpoint : (p.dualPoint alpha beta).get ⬝ᵥ w.get =
      p.linear.get ⬝ᵥ w.get - alpha.get ⬝ᵥ w.get - beta * ∑ i, w.get i := by
    simp only [dotProduct, dualPoint_get, Finset.mul_sum,
      ← Finset.sum_sub_distrib]
    apply Finset.sum_congr rfl
    intro i _
    ring
  rw [lagrangian, Objective.value_eq, hpoint, Vec.dot_eq_dotProduct,
    Vec.total_eq_sum, p.quadratic_eq, p.linear_eq]
  ring

/-- Around a solution of the stationarity system the Lagrangian grows by half
the form of the difference. -/
theorem lagrangian_eq_add_form (hp : p.Symmetric) {alpha : Vec ℝ n} {beta : ℝ}
    {x : Vec ℝ n}
    (hx : Mat.toMatrix p.quadratic *ᵥ x.get = (p.dualPoint alpha beta).get)
    (w : Vec ℝ n) :
    p.lagrangian alpha beta w = p.lagrangian alpha beta x +
      (w.get - x.get) ⬝ᵥ (Mat.toMatrix p.quadratic *ᵥ (w.get - x.get)) / 2 := by
  have hcross := dotProduct_mulVec_comm hp x.get w.get
  rw [lagrangian_eq, lagrangian_eq, ← hx, Matrix.mulVec_sub, sub_dotProduct,
    dotProduct_sub, dotProduct_sub, hcross,
    dotProduct_comm (Mat.toMatrix p.quadratic *ᵥ x.get),
    dotProduct_comm (Mat.toMatrix p.quadratic *ᵥ x.get)]
  ring

/-- The dual objective is the value of the Lagrangian where it is stationary. -/
theorem exists_dualObjective?_eq (hp : p.Symmetric) (alpha : Vec ℝ n) (beta : ℝ) :
    ∃ x : Vec ℝ n,
      Mat.toMatrix p.quadratic *ᵥ x.get = (p.dualPoint alpha beta).get ∧
      p.dualObjective? alpha beta = some (p.lagrangian alpha beta x) := by
  have hsolve := Factor.mulVec_solve_of_symmetric p.factor_eq hp
    (p.dualPoint alpha beta)
  refine ⟨p.factor.solve (p.dualPoint alpha beta), hsolve, ?_⟩
  simp only [dualObjective?, Factor.solve?_eq_some, Option.bind_eq_bind,
    Option.bind_some, dualValue, Vec.dot_eq_dotProduct, Scalar.half_eq]
  rw [lagrangian_eq, hsolve, dotProduct_comm (p.factor.solve _).get]
  congr 1
  ring

/-- No other stationary point gives another value. -/
theorem dualObjective?_of_stationary (hp : p.Symmetric) {alpha : Vec ℝ n} {beta : ℝ}
    {x : Vec ℝ n}
    (hx : Mat.toMatrix p.quadratic *ᵥ x.get = (p.dualPoint alpha beta).get) :
    p.dualObjective? alpha beta = some (p.lagrangian alpha beta x) := by
  obtain ⟨y, hy, hdual⟩ := p.exists_dualObjective?_eq hp alpha beta
  have hform := Factor.quadratic_nonneg_of_symmetric p.factor_eq hp (x.get - y.get)
  have hform' := Factor.quadratic_nonneg_of_symmetric p.factor_eq hp (y.get - x.get)
  have hvalue := p.lagrangian_eq_add_form hp hx y
  have hvalue' := p.lagrangian_eq_add_form hp hy x
  rw [hdual]
  congr 1
  linarith

/-- The dual objective exists and is at most the Lagrangian at any point. -/
theorem dualObjective?_le_lagrangian (hp : p.Symmetric) (alpha : Vec ℝ n)
    (beta : ℝ) :
    ∃ dual, p.dualObjective? alpha beta = some dual ∧
      ∀ w, dual ≤ p.lagrangian alpha beta w := by
  obtain ⟨x, hx, hdual⟩ := p.exists_dualObjective?_eq hp alpha beta
  refine ⟨_, hdual, ?_⟩
  intro w
  have hform := Factor.quadratic_nonneg_of_symmetric p.factor_eq hp
    (w.get - x.get)
  rw [p.lagrangian_eq_add_form hp hx w]
  linarith

end Program

end SparseWeights
