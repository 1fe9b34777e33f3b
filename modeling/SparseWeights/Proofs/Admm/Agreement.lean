import SparseWeights.Proofs.Admm.Invariant
import SparseWeights.Proofs.Penalty.Constant

/-!
Runs that cannot be told apart. The loop reads program, penalty and system
through its iterations alone, so two jobs whose iterations agree at every state
make the same run. Penalties with the same factors are such a case: their dual
tests measure differently, but only outside the ball, which the multiplier of an
iteration never leaves.
-/

namespace SparseWeights

section Loop

variable {α : Type} [Scalar α] {n : Nat}

/-- Loops whose iterations agree, with the same rule to stop, make the same run. -/
theorem iterate_congr {program program' : Program α n} {penalty penalty' : Penalty α n}
    {system system' : WeightSystem α n} {settings settings' : Settings α}
    (hadvance : ∀ (s : State α n) (i : Nat), s.advance program penalty system i =
      s.advance program' penalty' system' i)
    (hstop : ∀ (r : Record Nat α) (now : α), settings.stop? r now = settings'.stop? r now)
    (elapsed : Nat → α) (fuel done : Nat) (s : State α n) (seen : History Nat α) :
    iterate program penalty system settings elapsed fuel done s seen =
      iterate program' penalty' system' settings' elapsed fuel done s seen := by
  induction fuel generalizing done s seen with
  | zero => rfl
  | succ fuel ih => simp only [iterate, hadvance, hstop, ih]

/-- Jobs whose iterations agree come to the same answer. -/
theorem Job.result_congr (job job' : Job α n)
    (hadvance : ∀ (s : State α n) (i : Nat),
      s.advance job.program job.penalty job.system i =
        s.advance job'.program job'.penalty job'.system i)
    (hvalue : ∀ v, job.penalty.value v = job'.penalty.value v)
    (hrho : job.system.rho = job'.system.rho) (hsettings : job.settings = job'.settings)
    (hstart : job.start = job'.start) (elapsed : Nat → α) :
    job.result elapsed = job'.result elapsed := by
  have htrace : job.trace elapsed = job'.trace elapsed := by
    simp only [trace, hsettings, hstart, iterate_congr hadvance fun _ _ => rfl]
  simp only [result, htrace, hrho, Trace.result, hvalue]

end Loop

variable {n : ℕ}

/-- Penalties with the same factors go through the same iterations. -/
theorem State.advance_sameFactors {p p' : Penalty ℝ n} (hfactors : p.SameFactors p')
    (hp : p.Falls) (hp' : p'.Falls) (program : Program ℝ n) {system : WeightSystem ℝ n}
    (hrho : 0 < system.rho) (s : State ℝ n) (i : ℕ) :
    s.advance program p system i = s.advance program p' system i := by
  have hnext (w : Vec ℝ n) : s.updated p system.rho w = s.updated p' system.rho w := by
    simp only [State.updated, hfactors.prox_eq hp hp' _ (one_div_pos.mpr hrho)]
  have hrecord (w : Vec ℝ n) (dual : ℝ) :
      measure program p system.rho i w (s.updated p' system.rho w) dual =
        measure program p' system.rho i w (s.updated p' system.rho w) dual := by
    have hball := (s.updated_isSubgradient hp' hrho w).ball
    simp only [measure, hfactors.value_eq,
      hfactors.dualInfeasibility_eq hp hp' ((hfactors.inBall_iff _).mpr hball)]
  simp only [State.advance, hnext, hrecord]

theorem Job.result_sameFactors (job : Job ℝ n) {p : Penalty ℝ n}
    (hfactors : job.penalty.SameFactors p) (hpenalty : job.penalty.Falls) (hp : p.Falls)
    (hrho : 0 < job.system.rho) (elapsed : ℕ → ℝ) :
    { job with penalty := p }.result elapsed = job.result elapsed := by
  apply Eq.symm
  apply Job.result_congr job { job with penalty := p }
  · exact State.advance_sameFactors hfactors hpenalty hp job.program hrho
  · exact hfactors.value_eq
  · rfl
  · rfl
  · rfl

/-- A factor that is repeated for every weight gives the run that the factor
alone gives: the same weights, multipliers, objective, status and history. This
holds for every program, also for one that is not symmetric. -/
theorem run_replicate_eq_run_l1 (program : Program ℝ n) (hn : 0 < n) {lam : ℝ}
    (hlam : 0 ≤ lam) {settings : Settings ℝ} (hsettings : settings.Accepted)
    (start : Vec ℝ n) :
    ∃ single repeated : Penalty ℝ n,
      (PenaltySpec.make .l1 [lam] (some n) >>= fun spec => spec.fit n) = .ok single ∧
      (PenaltySpec.make .sortedL1 (List.replicate n lam) (some n) >>= fun spec =>
        spec.fit n) = .ok repeated ∧
      ∃ job job', Job.ofProgram? program single settings start = some job ∧
        Job.ofProgram? program repeated settings start = some job' ∧
        ∀ elapsed, job'.result elapsed = job.result elapsed ∧
          (settings.maxIter < Job.countLimit →
            ∃ result, job.result elapsed = .ok result) := by
  obtain ⟨system, hsystem⟩ :=
    WeightSystem.exists_ofMatrix? program (hsettings.rhoFor_pos program)
  have hrho : 0 < system.rho := by
    rw [(WeightSystem.ofMatrix?_eq_some hsystem).2]
    exact hsettings.rhoFor_pos program
  refine ⟨.l1 lam, .sortedL1 (Vector.replicate n lam), Penalty.make_l1 hlam _,
    Penalty.make_replicate hn hlam, _, _, Job.ofProgram?_of_system hsystem _ start,
    Job.ofProgram?_of_system hsystem _ start, ?_⟩
  intro elapsed
  constructor
  · exact Job.result_sameFactors ⟨program, .l1 lam, settings, system, start⟩
      (Penalty.sameFactors_replicate lam) (Penalty.l1_falls hlam)
      (Penalty.replicate_falls hlam) hrho elapsed
  · intro hcount
    exact Job.exists_result_of_pos _ hn hcount elapsed

/-- On two weights the factor a fifth may be written once or twice. -/
theorem run_replicate_eq_run_l1_pair :
    ∃ program : Program ℝ 2, program.Accepted ∧ ∃ job job' : Job ℝ 2,
      Job.ofProgram? program (.l1 (1 / 5)) pairSettings #v[1, 0] = some job ∧
      Job.ofProgram? program (.sortedL1 (Vector.replicate 2 (1 / 5))) pairSettings
        #v[1, 0] = some job' ∧
      ∃ result, job.result 0 = .ok result ∧ job'.result 0 = .ok result := by
  obtain ⟨program, hprogram, _⟩ := exists_pairProgram
  have hlam : (0 : ℝ) ≤ 1 / 5 := by
    norm_num
  obtain ⟨single, repeated, hsingle, hrepeated, job, job', hjob, hjob', hruns⟩ :=
    run_replicate_eq_run_l1 program two_pos hlam pairSettings_accepted #v[1, 0]
  rw [Penalty.make_l1 hlam] at hsingle
  rw [Penalty.make_replicate two_pos hlam] at hrepeated
  obtain rfl := Except.ok.inj hsingle
  obtain rfl := Except.ok.inj hrepeated
  obtain ⟨heq, hexists⟩ := hruns 0
  have hcount : pairSettings.maxIter < Job.countLimit := by
    change 10 < Job.countLimit
    decide
  obtain ⟨result, hresult⟩ := hexists hcount
  exact ⟨program, hprogram, job, job', hjob, hjob', result, hresult, heq.trans hresult⟩

end SparseWeights
