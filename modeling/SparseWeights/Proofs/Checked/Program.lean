import SparseWeights.Admm.WeightSystem
import SparseWeights.Program.Basic
import SparseWeights.Proofs.Checked.Factor

/-!
Programs and systems of the weight update with defined numbers only. Both keep the
factor of their matrix, and that the factor exists is as true with defined numbers
as it is over the reals.
-/

namespace SparseWeights

variable {n : ℕ}

namespace Objective

def checked : Objective ℝ n → Objective Checked n
  | leastSquares X Y => .leastSquares X.checked Y.checked
  | meanVariance Sigma mu phi => .meanVariance Sigma.checked mu.checked (.number phi)

variable (o : Objective ℝ n)

theorem quadratic_checked : o.checked.quadratic = o.quadratic.checked := by
  cases o with
  | leastSquares X Y => exact Mat.gram_checked X
  | meanVariance Sigma mu phi => exact Mat.scale_checked Sigma phi

theorem linear_checked : o.checked.linear = o.linear.checked := by
  cases o with
  | leastSquares X Y =>
      rw [checked, linear, Mat.transpose_checked, Mat.mulVec_checked, linear]
  | meanVariance Sigma mu phi => rfl

theorem offset_checked : o.checked.offset = .number o.offset := by
  cases o with
  | leastSquares X Y =>
      rw [checked, offset, Checked.number_half, Vec.dot_checked, Checked.number_mul, offset]
  | meanVariance Sigma mu phi => rfl

theorem value_checked (w : Vec ℝ n) : o.checked.value w.checked = .number (o.value w) := by
  cases o with
  | leastSquares X Y => simp [checked, value, Checked.number_half]
  | meanVariance Sigma mu phi => simp [checked, value, Checked.number_half]

end Objective

namespace Program

variable (p : Program ℝ n)

def checked : Program Checked n where
  objective := p.objective.checked
  quadratic := p.quadratic.checked
  linear := p.linear.checked
  factor := p.factor.checked
  quadratic_eq := by rw [p.quadratic_eq, Objective.quadratic_checked]
  linear_eq := by rw [p.linear_eq, Objective.linear_checked]
  factor_eq := by rw [Factor.ofMatrix?_checked, p.factor_eq, Option.map_some]

theorem dualPoint_checked (alpha : Vec ℝ n) (beta : ℝ) :
    p.checked.dualPoint alpha.checked (.number beta) =
      (p.dualPoint alpha beta).checked := by
  apply Vec.eq_of_get
  simp [dualPoint, checked]

theorem dualValue_checked (product beta : ℝ) :
    p.checked.dualValue (.number product) (.number beta) =
      .number (p.dualValue product beta) := by
  simp [dualValue, checked, Checked.number_half, Objective.offset_checked]

theorem dualObjective?_checked (alpha : Vec ℝ n) (beta : ℝ) :
    p.checked.dualObjective? alpha.checked (.number beta) =
      (p.dualObjective? alpha beta).map .number := by
  have hsolve := Factor.solve?_checked p.factor (Factor.positive_of_ofMatrix? p.factor_eq)
    (p.dualPoint alpha beta)
  have hfactor : p.checked.factor = p.factor.checked := rfl
  rw [dualObjective?, dualPoint_checked, hfactor, hsolve, dualObjective?,
    Factor.solve?_eq_some]
  simp [dualValue_checked]

end Program

theorem Mat.shifted_checked (Q : Mat ℝ n n) (rho : ℝ) :
    Mat.shifted Q.checked (.number rho) = (Mat.shifted Q rho).checked := by
  apply Vec.eq_of_get
  intro i
  apply Vec.eq_of_get
  intro j
  simp only [Mat.shifted, Mat.ofFn, Vec.get_ofFn, Vec.get_map, Checked.zero_eq, Checked.one_eq]
  split
  · rfl
  · rfl

namespace WeightSystem

/-- A system is the one that its own matrix and step size give. -/
theorem ofMatrix?_self {α : Type} [Scalar α] (system : WeightSystem α n) :
    ofMatrix? system.quadratic system.rho = some system := by
  unfold ofMatrix?
  split
  · rename_i factor hfactor
    obtain rfl := Option.some.inj (system.factor_eq.symm.trans hfactor)
    rfl
  · rename_i hnone
    cases system.factor_eq.symm.trans hnone

def checked (system : WeightSystem ℝ n) : WeightSystem Checked n where
  quadratic := system.quadratic.checked
  rho := .number system.rho
  factor := system.factor.checked
  factor_eq := by
    rw [Mat.shifted_checked, Factor.ofMatrix?_checked, system.factor_eq, Option.map_some]

theorem solve?_checked (system : WeightSystem ℝ n) (b : Vec ℝ n) :
    system.checked.solve? b.checked = (system.solve? b).map Vec.checked :=
  Factor.solve?_checked system.factor (Factor.positive_of_ofMatrix? system.factor_eq) b

end WeightSystem

end SparseWeights
