import SparseWeights.Proofs.Linear.Relabel
import SparseWeights.Proofs.Program.Adapters

/-!
One problem under other names for its weights. The columns of a design are
renamed, or the rows and columns of a covariance and the mean with them. The
builders let the renamed problem through if they let the problem through, and
its objectives, primal and dual, take the same values at renamed arguments.
-/

namespace SparseWeights

open Matrix

variable {n : ℕ}

namespace Objective

variable {α : Type}

def relabel (names : Equiv.Perm (Fin n)) : Objective α n → Objective α n
  | leastSquares X Y => .leastSquares (Mat.relabelColumns names X) Y
  | meanVariance Sigma mu phi =>
    .meanVariance (Mat.relabel names Sigma) (Vec.relabel names mu) phi

variable (names : Equiv.Perm (Fin n)) (o : Objective ℝ n)

theorem quadratic_relabel : (o.relabel names).quadratic = Mat.relabel names o.quadratic := by
  cases o with
  | leastSquares X Y => exact Mat.gram_relabelColumns names X
  | meanVariance Sigma mu phi => exact Mat.scale_relabel names phi Sigma

theorem linear_relabel : (o.relabel names).linear = Vec.relabel names o.linear := by
  cases o with
  | leastSquares X Y =>
      rw [relabel, linear, linear, Mat.transpose_relabelColumns, Mat.mulVec, Mat.mulVec,
        Vec.relabel_map]
  | meanVariance Sigma mu phi => rfl

theorem offset_relabel : (o.relabel names).offset = o.offset := by
  cases o with
  | leastSquares X Y => rfl
  | meanVariance Sigma mu phi => rfl

theorem value_relabel (w : Vec ℝ n) :
    (o.relabel names).value (Vec.relabel names w) = o.value w := by
  cases o with
  | leastSquares X Y => rw [relabel, value, value, Mat.mulVec_relabelColumns]
  | meanVariance Sigma mu phi =>
      rw [relabel, value, value, Mat.mulVec_relabel, Vec.dot_relabel, Vec.dot_relabel]

end Objective

namespace Program

/-- The second program is the first with other names for the weights. -/
def IsRelabelled (names : Equiv.Perm (Fin n)) (p p' : Program ℝ n) : Prop :=
  p'.objective = p.objective.relabel names

namespace IsRelabelled

variable {names : Equiv.Perm (Fin n)} {p p' : Program ℝ n}
  (hnames : IsRelabelled names p p')

include hnames

theorem quadratic_eq : p'.quadratic = Mat.relabel names p.quadratic := by
  rw [p'.quadratic_eq, hnames, Objective.quadratic_relabel, p.quadratic_eq]

theorem linear_eq : p'.linear = Vec.relabel names p.linear := by
  rw [p'.linear_eq, hnames, Objective.linear_relabel, p.linear_eq]

theorem value_eq (w : Vec ℝ n) :
    p'.objective.value (Vec.relabel names w) = p.objective.value w := by
  rw [hnames, Objective.value_relabel]

theorem dualPoint_eq (alpha : Vec ℝ n) (beta : ℝ) :
    p'.dualPoint (Vec.relabel names alpha) beta =
      Vec.relabel names (p.dualPoint alpha beta) := by
  rw [dualPoint, dualPoint, hnames.linear_eq, Vec.relabel_map, Vec.relabel_sub]

theorem dualObjective?_eq (hp : p.Symmetric) (alpha : Vec ℝ n) (beta : ℝ) :
    p'.dualObjective? (Vec.relabel names alpha) beta = p.dualObjective? alpha beta := by
  have hfactor' : Factor.ofMatrix? (Mat.relabel names p.quadratic) = some p'.factor := by
    rw [← hnames.quadratic_eq, p'.factor_eq]
  have hsolve := Factor.solve_relabel names p.factor_eq hp hfactor'
    (p.dualPoint alpha beta)
  have hoffset : p'.objective.offset = p.objective.offset := by
    rw [hnames, Objective.offset_relabel]
  simp only [dualObjective?, Factor.solve?_eq_some, Option.bind_eq_bind, Option.bind_some,
    hnames.dualPoint_eq, hsolve, Vec.dot_relabel, dualValue, hoffset]

end IsRelabelled

/-- A symmetric program is one under all names. -/
theorem exists_relabelled (names : Equiv.Perm (Fin n)) {p : Program ℝ n}
    (hp : p.Symmetric) : ∃ p', IsRelabelled names p p' := by
  obtain ⟨L, hL⟩ := Factor.exists_ofMatrix?_relabel names p.factor_eq hp
  rw [p.quadratic_eq, ← Objective.quadratic_relabel] at hL
  exact ⟨⟨p.objective.relabel names, _, _, L, rfl, rfl, hL⟩, rfl⟩

theorem isSymmetricWithin_relabel (names : Equiv.Perm (Fin n)) {covariance : Mat ℝ n n}
    (hsymmetric : (Mat.toMatrix covariance).IsSymm) (tolerance : ℝ) :
    isSymmetricWithin tolerance (Mat.relabel names covariance) =
      isSymmetricWithin tolerance covariance := by
  rw [isSymmetricWithin, isSymmetricWithin, Mat.maxAbs_relabel,
    Mat.asymmetry_eq_zero hsymmetric,
    Mat.asymmetry_eq_zero (Mat.isSymm_relabel names hsymmetric)]

theorem exists_regression_relabel (names : Equiv.Perm (Fin n)) {X Y : Tensor ℝ} {m : ℕ}
    {design : Mat ℝ m n} (hdesign : designOf X = .ok ⟨m, n, design⟩) {p : Program ℝ n}
    (hp : regression (.ok X) (.ok Y) = .ok ⟨n, p⟩) :
    ∃ p', regression (.ok (.ofMat (Mat.relabelColumns names design))) (.ok Y) =
      .ok ⟨n, p'⟩ ∧ IsRelabelled names p p' := by
  obtain ⟨m', n', design', response, hread, hresponse, hbuilt⟩ :=
    regression_eq_ok_iff.mp hp
  rw [hdesign] at hread
  cases hread
  obtain ⟨q, hq, hsized⟩ := ofObjective_eq_ok_iff.mp hbuilt
  cases hsized
  have hobjective := ofObjective?_objective hq
  have hsymmetric : p.Symmetric := (Accepted.regression X Y hp).symmetric
  obtain ⟨p', hp'⟩ := exists_relabelled names hsymmetric
  refine ⟨p', regression_eq_ok_iff.mpr ⟨m, n, _, response, designOf_ofMat _, hresponse,
    ofObjective_eq_ok_iff.mpr ⟨p', ofObjective?_eq_some_iff.mpr ?_, rfl⟩⟩, hp'⟩
  rw [hp', hobjective, Objective.relabel]

/-- A portfolio with a symmetric covariance is let through under all names. -/
theorem exists_portfolio_relabel (names : Equiv.Perm (Fin n)) {Sigma mu : Tensor ℝ}
    {phi : ℝ} {tolerance : Option ℝ} {covariance : Mat ℝ n n} {mean : Vec ℝ n}
    (hcovariance : covarianceOf Sigma = .ok ⟨n, covariance⟩)
    (hmean : vectorOf "mu" mu = .ok ⟨n, mean⟩)
    (hsymmetric : (Mat.toMatrix covariance).IsSymm) {p : Program ℝ n}
    (hp : portfolio (.ok Sigma) (.ok mu) (.ok phi) (.ok tolerance) = .ok ⟨n, p⟩) :
    ∃ p', portfolio (.ok (.ofMat (Mat.relabel names covariance)))
      (.ok (.ofVec (Vec.relabel names mean))) (.ok phi) (.ok tolerance) = .ok ⟨n, p'⟩ ∧
        IsRelabelled names p p' := by
  obtain ⟨n', covariance', mean', hread, htolerance, hread', hphi, hbuilt⟩ :=
    portfolio_eq_ok_iff.mp hp
  rw [hcovariance] at hread
  cases hread
  rw [hmean] at hread'
  cases hread'
  obtain ⟨q, hq, hsized⟩ := ofObjective_eq_ok_iff.mp hbuilt
  cases hsized
  have hobjective := ofObjective?_objective hq
  have hp_symmetric : p.Symmetric :=
    (Accepted.portfolio Sigma mu phi tolerance covariance hcovariance hsymmetric hp).symmetric
  obtain ⟨p', hp'⟩ := exists_relabelled names hp_symmetric
  refine ⟨p', portfolio_eq_ok_iff.mpr ⟨n, _, _, covarianceOf_ofMat _, ?_,
    vectorOf_ofVec "mu" _, hphi, ofObjective_eq_ok_iff.mpr
      ⟨p', ofObjective?_eq_some_iff.mpr ?_, rfl⟩⟩, hp'⟩
  · intro t ht
    rw [isSymmetricWithin_relabel names hsymmetric]
    exact htolerance t ht
  · rw [hp', hobjective, Objective.relabel]

end Program

end SparseWeights
