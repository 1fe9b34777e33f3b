import SparseWeights.Proofs.Admm.Descent

/-!
The states that an iteration leaves alone. They are the saddle points of the
problem, whatever the step size is, although every update of the iteration uses
it. At such a state the new weights are the old ones, the recorded gap and both
residuals are zero, and no weights that sum to one have a smaller objective.
-/

namespace SparseWeights

variable {n : ℕ}

namespace Program.IsSaddle

variable {program : Program ℝ n} {penalty : Penalty ℝ n} {star : State ℝ n}
  (hstar : program.IsSaddle penalty star)

include hstar

/-- A problem without weights has no saddle point, since no weights sum to one. -/
theorem dimension_pos : 0 < n := by
  rcases Nat.eq_zero_or_pos n with rfl | hn
  · have htotal := hstar.total_eq
    rw [Vec.total_eq_sum, Finset.univ_eq_empty, Finset.sum_empty] at htotal
    exact absurd htotal zero_ne_one
  · exact hn

theorem mulVec_eq_dualPoint :
    Matrix.mulVec (Mat.toMatrix program.quadratic) star.v.get =
      (program.dualPoint star.alpha star.beta).get := by
  funext k
  have hk := hstar.stationary k
  rw [Mat.mulVec_eq] at hk
  rw [Program.dualPoint_get]
  linarith

/-- The dual objective at the multipliers is the objective at the weights. -/
theorem dualObjective?_eq (hprogram : program.Symmetric) :
    program.dualObjective? star.alpha star.beta =
      some (program.objective.value star.v + penalty.value star.v) := by
  rw [program.dualObjective?_of_stationary hprogram hstar.mulVec_eq_dualPoint,
    Program.lagrangian, hstar.total_eq, hstar.tight, sub_self, mul_zero, add_zero]

/-- The weights of a saddle point have the least objective of all that sum to one. -/
theorem value_le (hprogram : program.Accepted) (hpenalty : penalty.Accepted)
    {w : Vec ℝ n} (hw : Vec.total w = 1) :
    program.objective.value star.v + penalty.value star.v ≤
      program.objective.value w + penalty.value w := by
  have hball := (penalty.dualInfeasibility_eq_zero_iff hpenalty.falls star.alpha).mp
    hstar.dualFeasible
  exact Program.dualObjective?_le_of_inBall hprogram.symmetric hball
    (hstar.dualObjective?_eq hprogram.symmetric) hw

end Program.IsSaddle

namespace Job

variable {job : Job ℝ n} {s : State ℝ n} {step : Step ℝ n}

/-- An iteration that leaves its state alone has reached a saddle point. -/
theorem Advances.isSaddle_of_next_eq (hjob : job.Accepted)
    (hadvances : job.Advances s step) (hnext : step.next = s) :
    job.program.IsSaddle job.penalty s := by
  have hrho := hjob.rho_pos
  have hstationary := hadvances.stationary
  have halpha := hadvances.alpha_eq
  have hbeta := hadvances.beta_eq
  have hsubgradient := hadvances.subgradient
  rw [hnext] at hstationary halpha hbeta hsubgradient
  have hw : step.w = s.v := by
    apply Vec.eq_of_get
    intro k
    have hmove : job.system.rho * (step.w.get k - s.v.get k) = 0 := by
      linarith [halpha k]
    exact sub_eq_zero.mp ((mul_eq_zero.mp hmove).resolve_left hrho.ne')
  have htotal : Vec.total s.v = 1 := by
    have hmiss : job.system.rho * (Vec.total step.w - 1) = 0 := by
      linarith
    rw [← hw]
    exact sub_eq_zero.mp ((mul_eq_zero.mp hmiss).resolve_left hrho.ne')
  obtain ⟨hfeasible, htight⟩ :=
    (Penalty.isSubgradient_iff hjob.penalty.falls).mp hsubgradient
  refine ⟨?_, htotal, hfeasible, htight⟩
  intro k
  have hk := hstationary k
  rwa [hw, sub_self, mul_zero] at hk

/-- An iteration leaves a saddle point alone: the potential of a state with
respect to itself is zero and cannot fall any further. -/
theorem Advances.eq_of_isSaddle (hjob : job.Accepted)
    (hadvances : job.Advances s step) (hs : job.program.IsSaddle job.penalty s) :
    step.w = s.v ∧ step.next = s := by
  have hrho := hjob.rho_pos
  have hdescent := hadvances.potential_le hjob hs
  have hpotential := potential_nonneg hrho s step.next
  have hdistance := Vec.distanceSq_nonneg step.w s.v
  have hmiss := sq_nonneg (Vec.total step.w - 1)
  rw [potential_self] at hdescent
  have hdrop : Vec.distanceSq step.w s.v + (Vec.total step.w - 1) ^ 2 = 0 := by
    apply le_antisymm _ (add_nonneg hdistance hmiss)
    apply le_of_mul_le_mul_left _ hrho
    linarith
  have hw : step.w = s.v := Vec.distanceSq_eq_zero_iff.mp (by linarith)
  -- With the same weights the updates of both multipliers add nothing.
  have hv : step.next.v = s.v := by
    have hsubgradient : job.penalty.IsSubgradient s.v s.alpha :=
      (Penalty.isSubgradient_iff hjob.penalty.falls).mpr ⟨hs.dualFeasible, hs.tight⟩
    apply hadvances.subgradient.weights_eq hsubgradient (one_div_pos.mpr hrho)
    intro k
    rw [hadvances.alpha_eq k, hw]
    field_simp
    ring
  refine ⟨hw, ?_⟩
  have halpha : step.next.alpha = s.alpha := by
    apply Vec.eq_of_get
    intro k
    rw [hadvances.alpha_eq k, hw, hv, sub_self, mul_zero, add_zero]
  have hbeta : step.next.beta = s.beta := by
    rw [hadvances.beta_eq, hw, hs.total_eq, sub_self, mul_zero, add_zero]
  calc
    step.next = ⟨step.next.v, step.next.alpha, step.next.beta⟩ := rfl
    _ = s := by rw [hv, halpha, hbeta]

/-- At a saddle point there is nothing left to measure. -/
theorem Advances.record_of_isSaddle (hjob : job.Accepted)
    (hadvances : job.Advances s step) (hs : job.program.IsSaddle job.penalty s) :
    step.record.gap = 0 ∧ step.record.primalResidual = 0 ∧
      step.record.dualResidual = 0 := by
  obtain ⟨hw, hnext⟩ := hadvances.eq_of_isSaddle hjob hs
  refine ⟨?_, ?_, hadvances.dualResidual_eq_zero hjob⟩
  · have hdual := hadvances.dual_eq
    rw [hnext, hs.dualObjective?_eq hjob.program.symmetric] at hdual
    rw [hadvances.gap_eq, hadvances.primal_eq, hw, ← Option.some.inj hdual, sub_self,
      abs_zero, zero_div]
  · have hlargest : Vec.maxAbs (Vec.sub s.v s.v) ≤ 0 := by
      rw [Vec.maxAbs_le_iff]
      simp
    rw [hadvances.primalResidual_eq, hnext, hw, hs.total_eq, sub_self, abs_zero]
    exact max_eq_right hlargest

end Job

/-- The fixed points of an iteration are the saddle points, for every step size.
At a saddle point the weights minimise the objective with the penalty among all
that sum to one, and the iteration keeps them and records nothing but zeros. -/
theorem advance_fixed_iff_saddle {program : Program ℝ n} (hprogram : program.Accepted)
    {penalty : Penalty ℝ n} (hpenalty : penalty.Accepted) {rho : ℝ} (hrho : 0 < rho) :
    ∃ system, WeightSystem.ofMatrix? program.quadratic rho = some system ∧
      ∀ (s : State ℝ n) (i : ℕ),
        ((∃ step, s.advance program penalty system i = .ok step ∧ step.next = s) ↔
          program.IsSaddle penalty s) ∧
        (program.IsSaddle penalty s →
          (∀ w, Vec.total w = 1 → program.objective.value s.v + penalty.value s.v ≤
            program.objective.value w + penalty.value w) ∧
          ∃ step, s.advance program penalty system i = .ok step ∧ step.w = s.v ∧
            step.record.gap = 0 ∧ step.record.primalResidual = 0 ∧
            step.record.dualResidual = 0) := by
  obtain ⟨job, hjob, rfl, rfl, hsystem⟩ :=
    Job.exists_accepted_of_rho hprogram hpenalty hrho
  refine ⟨job.system, hsystem, ?_⟩
  intro s i
  obtain ⟨hadvances, hexists⟩ := hjob.advances s i
  refine ⟨⟨?_, ?_⟩, ?_⟩
  · rintro ⟨step, hstep, hnext⟩
    exact (hadvances step hstep).isSaddle_of_next_eq hjob hnext
  · intro hs
    obtain ⟨step, hstep⟩ := hexists hs.dimension_pos
    exact ⟨step, hstep, ((hadvances step hstep).eq_of_isSaddle hjob hs).2⟩
  · intro hs
    obtain ⟨step, hstep⟩ := hexists hs.dimension_pos
    have hw := ((hadvances step hstep).eq_of_isSaddle hjob hs).1
    have hrecord := (hadvances step hstep).record_of_isSaddle hjob hs
    exact ⟨fun w => hs.value_le hprogram hpenalty, step, hstep, hw, hrecord⟩

/-- On two weights the step size two keeps the solution that was found with one. -/
theorem advance_fixed_iff_saddle_pair :
    ∃ program : Program ℝ 2, program.Accepted ∧ pairPenalty.Accepted ∧ (0 : ℝ) < 2 ∧
      ∃ system, WeightSystem.ofMatrix? program.quadratic 2 = some system ∧
        ∃ step, State.advance program pairPenalty system 1
            ⟨#v[19 / 20, 1 / 20], #v[1 / 5, 1 / 10], -3 / 20⟩ = .ok step ∧
          step.next = ⟨#v[19 / 20, 1 / 20], #v[1 / 5, 1 / 10], -3 / 20⟩ := by
  obtain ⟨program, hprogram, hobjective⟩ := exists_pairProgram
  have hpenalty := pairPenalty_falls.accepted two_pos
  obtain ⟨system, hsystem, hfixed⟩ :=
    advance_fixed_iff_saddle hprogram hpenalty (two_pos (α := ℝ))
  have hsaddle := Job.pairProgram_isSaddle hobjective
  exact ⟨program, hprogram, hpenalty, two_pos, system, hsystem,
    (hfixed _ 1).1.mpr hsaddle⟩

end SparseWeights
