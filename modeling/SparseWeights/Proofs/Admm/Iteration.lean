import SparseWeights.Proofs.Admm.Accepted
import SparseWeights.Proofs.Penalty.Prox

/-!
One iteration in exact arithmetic. `Advances` lists what an iteration of an
accepted job establishes, whatever state it starts from: the stationarity of
the new weights, the two multiplier updates, the new multiplier as a subgradient
of the penalty, and what is recorded. Later proofs use these equations and do not
open the iteration again.
-/

namespace SparseWeights

open Matrix

variable {n : ℕ}

/-- What an iteration establishes in exact arithmetic. -/
structure Job.Advances (job : Job ℝ n) (s : State ℝ n) (step : Step ℝ n) : Prop where
  stationary : ∀ i, (Mat.mulVec job.program.quadratic step.w).get i -
    job.program.linear.get i + step.next.alpha.get i + step.next.beta =
      job.system.rho * (s.v.get i - step.next.v.get i)
  alpha_eq : ∀ i, step.next.alpha.get i =
    s.alpha.get i + job.system.rho * (step.w.get i - step.next.v.get i)
  beta_eq : step.next.beta = s.beta + job.system.rho * (Vec.total step.w - 1)
  subgradient : job.penalty.IsSubgradient step.next.v step.next.alpha
  dual_eq : job.program.dualObjective? step.next.alpha step.next.beta =
    some step.record.dual
  primal_eq : step.record.primal =
    job.program.objective.value step.w + job.penalty.value step.w
  gap_eq : step.record.gap =
    |step.record.primal - step.record.dual| / max 1 step.record.primal
  primalResidual_eq : step.record.primalResidual =
    max (Vec.maxAbs (Vec.sub step.w step.next.v)) |Vec.total step.w - 1|
  dualResidual_eq : step.record.dualResidual =
    job.penalty.dualInfeasibility step.next.alpha

theorem Job.Advances.dualResidual_eq_zero {job : Job ℝ n} (hjob : job.Accepted)
    {s : State ℝ n} {step : Step ℝ n} (hadvances : job.Advances s step) :
    step.record.dualResidual = 0 := by
  rw [hadvances.dualResidual_eq]
  exact ((Penalty.isSubgradient_iff hjob.penalty.falls).mp hadvances.subgradient).1

/-- The multiplier update is what the proximal map takes off, times the step
size, and so a subgradient. -/
theorem State.updated_isSubgradient {penalty : Penalty ℝ n} (hpenalty : penalty.Falls)
    {rho : ℝ} (hrho : 0 < rho) (s : State ℝ n) (w : Vec ℝ n) :
    penalty.IsSubgradient (s.updated penalty rho w).v (s.updated penalty rho w).alpha := by
  have hprox := penalty.prox_isSubgradient hpenalty
    (Vec.add w (s.alpha.map fun x => x / rho)) (one_div_pos.mpr hrho)
  have halpha : (s.updated penalty rho w).alpha =
      Vec.scale (1 / (1 / rho))
        (Vec.sub (Vec.add w (s.alpha.map fun x => x / rho))
          (s.updated penalty rho w).v) := by
    apply Vec.eq_of_get
    intro i
    simp only [State.updated, Vec.get_add, Vec.get_scale, Vec.get_sub, Vec.get_map]
    field_simp
    ring
  rw [halpha]
  exact hprox

/-- Over the reals no iteration fails as long as there is a weight. -/
theorem State.exists_advance (hn : 0 < n) (program : Program ℝ n)
    (penalty : Penalty ℝ n) (system : WeightSystem ℝ n) (i : ℕ) (s : State ℝ n) :
    ∃ step, s.advance program penalty system i = .ok step := by
  simp only [State.advance, WeightSystem.solve?, Program.dualObjective?,
    Factor.solve?_eq_some, Option.bind_eq_bind, Option.bind_some, if_neg hn.ne']
  exact ⟨_, rfl⟩

namespace Job.Accepted

variable {job : Job ℝ n} (hjob : job.Accepted)

include hjob

/-- Every iteration of an accepted job, from whatever state, establishes the
equations; if there are weights at all, it also gives a result. -/
theorem advances (s : State ℝ n) (i : ℕ) :
    (∀ step, s.advance job.program job.penalty job.system i = .ok step →
      job.Advances s step) ∧
    (0 < n → ∃ step, s.advance job.program job.penalty job.system i = .ok step) := by
  have hsymmetric := hjob.program.symmetric
  obtain ⟨hquadratic, _⟩ := hjob.system_eq
  obtain ⟨w, hsolve, hw⟩ := job.system.solve?_spec (hquadratic ▸ hsymmetric)
    (s.rightSide job.program.linear job.system.rho)
  set next := s.updated job.penalty job.system.rho w with hnext
  obtain ⟨dual, hdual, _⟩ :=
    job.program.dualObjective?_le_lagrangian hsymmetric next.alpha next.beta
  have hadvance : s.advance job.program job.penalty job.system i =
      if n = 0 then .error .emptyMaximum
      else .ok ⟨w, next, measure job.program job.penalty job.system.rho i w next dual⟩ := by
    simp only [State.advance, hsolve, ← hnext, hdual]
  constructor
  · intro step hstep
    rw [hadvance] at hstep
    split at hstep
    · cases hstep
    · obtain rfl := Except.ok.inj hstep
      have halpha (k : Fin n) : next.alpha.get k =
          s.alpha.get k + job.system.rho * (w.get k - next.v.get k) := by
        simp [hnext, State.updated]
      have hbeta : next.beta = s.beta + job.system.rho * (Vec.total w - 1) := rfl
      have hsubgradient := s.updated_isSubgradient hjob.penalty.falls hjob.rho_pos w
      refine ⟨?_, halpha, hbeta, hsubgradient, hdual, rfl, ?_, ?_, rfl⟩
      · intro k
        have hk := hw k
        rw [hquadratic] at hk
        simp only [State.rightSide, Vec.get_add, Vec.get_map, Vec.get_sub] at hk
        simp only [Mat.mulVec_eq, halpha, hbeta, Vec.total_eq_sum]
        linear_combination hk
      · simp [measure]
      · simp [measure]
  · intro hn
    exact State.exists_advance hn job.program job.penalty job.system i s

end Job.Accepted

end SparseWeights
