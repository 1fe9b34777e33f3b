import SparseWeights.Proofs.Admm.Settings
import SparseWeights.Proofs.Penalty.Ball
import SparseWeights.Proofs.Program.Dual

/-!
What a job consists of once everything was let through. The settings then have
positive tolerances and a positive step size, asked for or not. The matrix of
the weight update is symmetric and positive definite, so that no job is refused
for want of a factor, and its system has a solution for every right side.
-/

namespace SparseWeights

open Matrix

variable {n : ℕ}

/-- Settings whose numbers passed the checks. -/
def Settings.Accepted (settings : Settings ℝ) : Prop :=
  ∃ (numbers : Settings.Numbers ℝ) (verbose progress : Value),
    Settings.ofNumbers numbers verbose progress = .ok settings

/-- A job made of a program and a penalty that were let through, with settings
that were. The first weights are arbitrary. -/
structure Job.Accepted (job : Job ℝ n) : Prop where
  program : job.program.Accepted
  penalty : job.penalty.Accepted
  settings : job.settings.Accepted
  prepared : Job.ofProgram? job.program job.penalty job.settings job.start = some job

theorem Settings.accepted_iff {settings : Settings ℝ} :
    settings.Accepted ↔
      0 < settings.maxIter ∧ (0 < settings.tolInfeas ∧ 0 < settings.tolRelGap) ∧
        (∀ rho, settings.rho = some rho → 0 < rho) ∧
        ∀ limit, settings.timeLimit = some limit → 0 < limit := by
  have hrho : (settings.rho.any fun rho => !Scalar.isPositive rho) = false ↔
      ∀ rho, settings.rho = some rho → 0 < rho := by
    cases settings.rho with
    | none => simp
    | some rho => simp [Scalar.isPositive]
  have htime : (settings.timeLimit.any fun limit => decide (limit ≤ 0)) = false ↔
      ∀ limit, settings.timeLimit = some limit → 0 < limit := by
    cases settings.timeLimit with
    | none => simp
    | some limit => simp
  rw [← hrho, ← htime]
  exact Settings.valid_iff

theorem Objective.positiveOrOne_pos (x : ℝ) : 0 < positiveOrOne x := by
  unfold positiveOrOne
  split
  · rename_i hx
    exact not_le.mp hx.2
  · exact one_pos

/-- The step size of a problem is positive, whatever its norm comes to. -/
theorem Objective.defaultRho_pos (objective : Objective ℝ n) : 0 < objective.defaultRho := by
  cases objective with
  | leastSquares X Y => exact positiveOrOne_pos _
  | meanVariance Sigma mu phi => exact positiveOrOne_pos _

namespace Settings.Accepted

variable {settings : Settings ℝ} (hsettings : settings.Accepted)

include hsettings

/-- The limit on the iterations may be any positive number. -/
theorem withLimit {limit : ℕ} (hlimit : 0 < limit) :
    { settings with maxIter := limit }.Accepted := by
  obtain ⟨_, hrest⟩ := accepted_iff.mp hsettings
  exact accepted_iff.mpr ⟨hlimit, hrest⟩

theorem rhoFor_pos (program : Program ℝ n) : 0 < settings.rhoFor program := by
  rw [Settings.rhoFor]
  cases hrho : settings.rho with
  | some rho =>
      obtain ⟨_, _, hpositive, _⟩ := accepted_iff.mp hsettings
      exact hpositive rho hrho
  | none => exact program.objective.defaultRho_pos

end Settings.Accepted

theorem Mat.shifted_isSymm {Q : Mat ℝ n n} (hQ : (Mat.toMatrix Q).IsSymm) (rho : ℝ) :
    (Mat.toMatrix (Mat.shifted Q rho)).IsSymm := by
  apply Matrix.IsSymm.ext
  intro i j
  have hij := hQ.apply i j
  simp only [Mat.toMatrix_apply] at hij
  simp [Mat.toMatrix_apply, Mat.shifted, Mat.ofFn, hij, eq_comm]

theorem Mat.shifted_mulVec (Q : Mat ℝ n n) (rho : ℝ) (x : Fin n → ℝ) (i : Fin n) :
    (Mat.toMatrix (Mat.shifted Q rho) *ᵥ x) i =
      (Mat.toMatrix Q *ᵥ x) i + rho * (x i + ∑ j, x j) := by
  have hentry (j : Fin n) : Mat.toMatrix (Mat.shifted Q rho) i j * x j =
      Mat.toMatrix Q i j * x j + ((if i = j then rho * x j else 0) + rho * x j) := by
    simp only [Mat.toMatrix_apply, Mat.shifted, Mat.ofFn, Vec.get_ofFn]
    split
    · ring
    · ring
  simp only [Matrix.mulVec, dotProduct, hentry, Finset.sum_add_distrib,
    Finset.sum_ite_eq, Finset.mem_univ, if_true, Finset.mul_sum, mul_add]

/-- The form of the shifted matrix exceeds that of the matrix by two sums of
squares. -/
theorem Mat.shifted_form (Q : Mat ℝ n n) (rho : ℝ) (x : Fin n → ℝ) :
    x ⬝ᵥ (Mat.toMatrix (Mat.shifted Q rho) *ᵥ x) =
      x ⬝ᵥ (Mat.toMatrix Q *ᵥ x) + rho * (x ⬝ᵥ x + (∑ i, x i) ^ 2) := by
  have hrows : Mat.toMatrix (Mat.shifted Q rho) *ᵥ x =
      Mat.toMatrix Q *ᵥ x + rho • (x + fun _ => ∑ j, x j) := by
    funext i
    rw [Mat.shifted_mulVec]
    rfl
  have hconst : x ⬝ᵥ (fun _ => ∑ j, x j) = (∑ i, x i) ^ 2 := by
    rw [dotProduct, ← Finset.sum_mul, sq]
  rw [hrows, dotProduct_add, dotProduct_smul, dotProduct_add, hconst, smul_eq_mul]

theorem WeightSystem.solve?_spec (system : WeightSystem ℝ n)
    (hsystem : (Mat.toMatrix system.quadratic).IsSymm) (b : Vec ℝ n) :
    ∃ w, system.solve? b = some w ∧ ∀ i,
      (Mat.toMatrix system.quadratic *ᵥ w.get) i +
        system.rho * (w.get i + ∑ j, w.get j) = b.get i := by
  refine ⟨system.factor.solve b, Factor.solve?_eq_some _ _, ?_⟩
  intro i
  rw [← Mat.shifted_mulVec]
  exact congrFun (Factor.mulVec_solve_of_symmetric system.factor_eq
    (Mat.shifted_isSymm hsystem system.rho) b) i

theorem WeightSystem.ofMatrix?_eq_some {α : Type} [Scalar α] {Q : Mat α n n} {rho : α}
    {system : WeightSystem α n} (h : WeightSystem.ofMatrix? Q rho = some system) :
    system.quadratic = Q ∧ system.rho = rho := by
  unfold WeightSystem.ofMatrix? at h
  split at h
  · rw [← Option.some.inj h]
    exact ⟨rfl, rfl⟩
  · cases h

/-- There is a system for every program and every positive step size, also where
the quadratic part is not symmetric: both factorisations read one triangle. -/
theorem WeightSystem.exists_ofMatrix? (program : Program ℝ n) {rho : ℝ} (hrho : 0 < rho) :
    ∃ system, WeightSystem.ofMatrix? program.quadratic rho = some system := by
  set mirrored : Mat ℝ n n := Mat.ofFn (Mat.mirrored program.quadratic) with hmirrored
  have hprogram : Mat.toMatrix mirrored = Mat.mirrored program.quadratic := by
    ext i j
    simp [hmirrored, Mat.toMatrix_apply, Mat.ofFn]
  have hshifted : Mat.mirrored (Mat.shifted program.quadratic rho) =
      Mat.toMatrix (Mat.shifted mirrored rho) := by
    ext i j
    simp only [Mat.mirrored, Mat.toMatrix_apply, Mat.shifted, Mat.ofFn, Vec.get_ofFn,
      hmirrored, Matrix.of_apply]
    split
    · rfl
    · simp [eq_comm]
  have hpos : ∀ x : Fin n → ℝ, x ≠ 0 →
      0 < x ⬝ᵥ (Mat.mirrored (Mat.shifted program.quadratic rho) *ᵥ x) := by
    intro x hx
    have hform := Factor.form_pos_of_cholesky?
      (Factor.ofMatrix?_eq_cholesky? program.quadratic ▸ program.factor_eq) hx
    have hsquares : 0 ≤ x ⬝ᵥ x + (∑ i, x i) ^ 2 :=
      add_nonneg (dotProduct_self_nonneg x) (sq_nonneg _)
    rw [hshifted, Mat.shifted_form, hprogram]
    exact add_pos_of_pos_of_nonneg hform (mul_nonneg hrho.le hsquares)
  obtain ⟨L, hL⟩ := Factor.exists_cholesky?_of_form_pos hpos
  rw [← Factor.ofMatrix?_eq_cholesky?] at hL
  unfold WeightSystem.ofMatrix?
  split
  · exact ⟨_, rfl⟩
  · rename_i hnone
    rw [hL] at hnone
    cases hnone

theorem Job.ofProgram?_of_system {program : Program ℝ n} {settings : Settings ℝ}
    {system : WeightSystem ℝ n}
    (hsystem : WeightSystem.ofMatrix? program.quadratic (settings.rhoFor program) =
      some system) (penalty : Penalty ℝ n) (start : Vec ℝ n) :
    Job.ofProgram? program penalty settings start =
      some ⟨program, penalty, settings, system, start⟩ := by
  rw [Job.ofProgram?, hsystem]
  rfl

/-- Nothing that was let through is refused when the job is made. -/
theorem Job.exists_accepted {program : Program ℝ n} {penalty : Penalty ℝ n}
    {settings : Settings ℝ} (hprogram : program.Accepted) (hpenalty : penalty.Accepted)
    (hsettings : settings.Accepted) (start : Vec ℝ n) :
    ∃ system, (Job.mk program penalty settings system start).Accepted := by
  obtain ⟨system, hsystem⟩ := WeightSystem.exists_ofMatrix? program
    (hsettings.rhoFor_pos program)
  exact ⟨system, hprogram, hpenalty, hsettings,
    Job.ofProgram?_of_system hsystem penalty start⟩

namespace Job.Accepted

variable {job : Job ℝ n} (hjob : job.Accepted)

include hjob

theorem ofMatrix?_system :
    WeightSystem.ofMatrix? job.program.quadratic (job.settings.rhoFor job.program) =
      some job.system := by
  have hprepared := hjob.prepared
  simp only [Job.ofProgram?, Option.map_eq_some_iff] at hprepared
  obtain ⟨system, hsystem, hjobeq⟩ := hprepared
  obtain rfl : system = job.system := by
    rw [← hjobeq]
  exact hsystem

theorem system_eq :
    job.system.quadratic = job.program.quadratic ∧
      job.system.rho = job.settings.rhoFor job.program :=
  WeightSystem.ofMatrix?_eq_some hjob.ofMatrix?_system

theorem rho_pos : 0 < job.system.rho := by
  rw [hjob.system_eq.2]
  exact hjob.settings.rhoFor_pos job.program

end Job.Accepted

/-- There is a job for every step size that is asked for. -/
theorem Job.exists_accepted_of_rho {program : Program ℝ n} {penalty : Penalty ℝ n}
    (hprogram : program.Accepted) (hpenalty : penalty.Accepted) {rho : ℝ}
    (hrho : 0 < rho) :
    ∃ job : Job ℝ n, job.Accepted ∧ job.program = program ∧ job.penalty = penalty ∧
      WeightSystem.ofMatrix? program.quadratic rho = some job.system := by
  have hsettings : Settings.Accepted
      ⟨1, 1, 1, some rho, .bool false, .bool false, none⟩ := by
    simp [Settings.accepted_iff, hrho]
  obtain ⟨system, hjob⟩ := Job.exists_accepted hprogram hpenalty hsettings
    (Vector.replicate n 0)
  exact ⟨_, hjob, rfl, rfl, hjob.ofMatrix?_system⟩

end SparseWeights
