import SparseWeights.Proofs.Admm.Trajectory
import SparseWeights.Proofs.Data.Tensor
import SparseWeights.Solve

/-!
A run in arrays of whatever shape. Here the number of weights is not part of any
type: each operation looks at the shapes it is given, and the proximal map
refuses an argument of another length than its factors. Started from as many
weights as there are factors, such a run is the run over vectors of one length.
No check ever fails in it, so all that can go wrong after the first iteration is
a fault of the arithmetic.
-/

namespace SparseWeights

variable {α : Type} [Scalar α] {n : Nat}

namespace Tensor

theorem total_flat_ofVec (v : Vec α n) : Vec.total (ofVec v).flat = Vec.total v := by
  obtain ⟨entries, rfl⟩ := v
  rfl

theorem maxAbs_flat_ofVec (v : Vec α n) : Vec.maxAbs (ofVec v).flat = Vec.maxAbs v := by
  obtain ⟨entries, rfl⟩ := v
  rfl

end Tensor

theorem Objective.valueAt_ofVec (o : Objective α n) (w : Vec α n) :
    o.valueAt (.ofVec w) = .ok (o.value w) := by
  unfold valueAt
  rw [Tensor.asVec?_ofVec]

theorem Program.dualObjectiveAt_ofVec (p : Program α n) (alpha : Vec α n) (beta : α) :
    p.dualObjectiveAt (.ofVec alpha) (.ok beta) =
      (p.dualObjective? alpha beta).elim (.error .notFinite) .ok := by
  rw [dualObjectiveAt, Tensor.asVec?_ofVec]
  rfl

namespace PenaltySpec

variable {spec : PenaltySpec α} {penalty : Penalty α n}

theorem proxAt_ofVec (hfit : spec.fit n = .ok penalty) (y : Vec α n) (t : α) :
    spec.proxAt (.ofVec y) t = .ok (.ofVec (penalty.prox y t)) := by
  cases spec with
  | l1 lam =>
      obtain rfl := Except.ok.inj hfit
      rw [proxAt, Tensor.map_ofVec, Penalty.prox]
  | sortedL1 lam =>
      obtain ⟨entries, rfl⟩ := y
      have hsize : (sortedL1 lam).fit (Tensor.ofVec (⟨entries, rfl⟩ : Vec α _)).size =
          .ok penalty := hfit
      rw [proxAt, hsize]
      rfl

theorem valueAt_ofVec (hfit : spec.fit n = .ok penalty) (w : Vec α n) :
    spec.valueAt (.ofVec w) = .ok (penalty.value w) := by
  obtain ⟨entries, rfl⟩ := w
  have hsize : spec.fit (Tensor.ofVec (⟨entries, rfl⟩ : Vec α _)).size = .ok penalty := hfit
  rw [valueAt, hsize]
  rfl

theorem dualInfeasibilityAt_ofVec (hfit : spec.fit n = .ok penalty) (alpha : Vec α n) :
    spec.dualInfeasibilityAt (.ofVec alpha) = .ok (penalty.dualInfeasibility alpha) := by
  obtain ⟨entries, rfl⟩ := alpha
  cases spec with
  | l1 lam =>
      obtain rfl := Except.ok.inj hfit
      rfl
  | sortedL1 lam =>
      rw [fit] at hfit
      split at hfit
      · rename_i hlength
        obtain rfl := Except.ok.inj hfit
        set alpha : Vec α entries.size := ⟨entries, rfl⟩
        have hdescending : (Vec.descending alpha).length = lam.length := by
          simp [Vec.descending, hlength]
        change (if entries.size = 0 then Except.ok 0 else
          Tensor.zipWith (fun a l => a - l) (.ofList (Vec.descending alpha)) (.ofList lam) >>=
            fun excess => .ok ((prefixSums 0 excess.entries).foldl Scalar.maxNaN 0)) = _
        split
        · rename_i hsize
          rw [hsize, List.length_eq_zero_iff] at hlength
          simp [Penalty.dualInfeasibility, hlength, prefixSums]
        · rw [Tensor.zipWith_ofList _ hdescending]
          rfl
      · cases hfit

end PenaltySpec

/-- What an iteration hands on to the next. -/
structure LooseState (α : Type) where
  v : Tensor α
  alpha : Tensor α
  beta : α

def State.loose (s : State α n) : LooseState α := ⟨.ofVec s.v, .ofVec s.alpha, s.beta⟩

namespace LooseState

def start (w : Tensor α) : LooseState α := ⟨w, w.map fun _ => 0, 0⟩

/-- An iteration in arrays. -/
def advance (program : Program α n) (spec : PenaltySpec α) (system : WeightSystem α n)
    (i : Nat) (s : LooseState α) : Except Error (LooseState α × Record Nat α) := do
  let rho := system.rho
  let point ← Tensor.zipWith (fun x y => x - y) (.ofVec program.linear) s.alpha
  let rhs ← Tensor.zipWith (fun x y => x + y) (point.map fun x => x - s.beta)
    (s.v.map fun x => rho * (x + 1))
  let w ← system.factor.solveAt rhs
  let y ← Tensor.zipWith (fun x y => x + y) w (s.alpha.map fun x => x / rho)
  let v ← spec.proxAt y (1 / rho)
  let difference ← Tensor.zipWith (fun x y => x - y) w v
  let alpha ← Tensor.zipWith (fun x y => x + y) s.alpha (difference.map fun x => rho * x)
  let excess := Vec.total w.flat - 1
  let beta := s.beta + rho * excess
  let value ← program.objective.valueAt w
  let primal := value + (← spec.valueAt w)
  let dual ← program.dualObjectiveAt alpha (.ok beta)
  if difference.size = 0 then throw (.fault .emptyMaximum)
  let dualResidual ← spec.dualInfeasibilityAt alpha
  return (⟨v, alpha, beta⟩,
    { iteration := i
      primal
      dual
      gap := Scalar.abs (primal - dual) / Scalar.larger 1 primal
      primalResidual := Scalar.larger (Vec.maxAbs difference.flat) (Scalar.abs excess)
      dualResidual
      rho })

end LooseState

theorem State.advance_loose {program : Program α n} {spec : PenaltySpec α}
    {penalty : Penalty α n} (hfit : spec.fit n = .ok penalty) (system : WeightSystem α n)
    (i : Nat) (s : State α n) :
    s.loose.advance program spec system i =
      ((s.advance program penalty system i).mapError .fault).map fun step =>
        (step.next.loose, step.record) := by
  have hrhs : Vector.zipWith (fun x y => x + y)
      ((Vector.zipWith (fun x y => x - y) program.linear s.alpha).map fun x => x - s.beta)
      (s.v.map fun x => system.rho * (x + 1)) = s.rightSide program.linear system.rho := rfl
  simp only [LooseState.advance, State.loose, Tensor.zipWith_ofVec, Tensor.map_ofVec, hrhs,
    Factor.solveAt_ofVec, bind, Except.bind, liftM, monadLift, MonadLift.monadLift,
    MonadLiftT.monadLift, advance, WeightSystem.solve?]
  cases system.factor.solve? (s.rightSide program.linear system.rho) with
  | none => rfl
  | some w =>
      set next := s.updated penalty system.rho w with hnext
      have hprox : penalty.prox (Vector.zipWith (fun x y => x + y) w
          (s.alpha.map fun x => x / system.rho)) (1 / system.rho) = next.v := rfl
      have halpha : Vector.zipWith (fun x y => x + y) s.alpha
          ((Vector.zipWith (fun x y => x - y) w next.v).map fun x => system.rho * x) =
            next.alpha := rfl
      have hbeta : s.beta + system.rho * (Vec.total w - 1) = next.beta := rfl
      simp only [Option.elim_some, Tensor.zipWith_ofVec, Tensor.map_ofVec,
        PenaltySpec.proxAt_ofVec hfit, hprox, halpha, Objective.valueAt_ofVec,
        PenaltySpec.valueAt_ofVec hfit, Tensor.total_flat_ofVec, Tensor.size_ofVec, hbeta,
        Program.dualObjectiveAt_ofVec, PenaltySpec.dualInfeasibilityAt_ofVec hfit,
        Tensor.maxAbs_flat_ofVec]
      cases program.dualObjective? next.alpha next.beta with
      | none => rfl
      | some dual =>
          by_cases hn : n = 0
          · simp only [hn, if_true]
            rfl
          · simp only [hn, if_false]
            rfl

/-- The records of the iterations, and the reason to stop with what the last one
handed on, or the error that ended them. -/
structure LooseTrace (α : Type) where
  records : History Nat α
  ending : Except Error (Stop × LooseState α)

def Trace.loose (trace : Trace α n) : LooseTrace α :=
  ⟨trace.records, (trace.ending.mapError .fault).map fun (stop, s) => (stop, s.loose)⟩

def LooseState.iterate (program : Program α n) (spec : PenaltySpec α)
    (system : WeightSystem α n) (settings : Settings α) (elapsed : Nat → α) :
    Nat → Nat → LooseState α → History Nat α → LooseTrace α
  | 0, _, s, seen => ⟨seen.reverse, .ok (.iterationLimit, s)⟩
  | fuel + 1, done, s, seen =>
    match s.advance program spec system (done + 1) with
    | .error cause => ⟨seen.reverse, .error cause⟩
    | .ok (next, record) =>
      match settings.stop? record (elapsed (done + 1)) with
      | some stop => ⟨(record :: seen).reverse, .ok (stop, next)⟩
      | none => iterate program spec system settings elapsed fuel (done + 1) next
          (record :: seen)

theorem iterate_loose {program : Program α n} {spec : PenaltySpec α} {penalty : Penalty α n}
    (hfit : spec.fit n = .ok penalty) (system : WeightSystem α n) (settings : Settings α)
    (elapsed : Nat → α) (fuel done : Nat) (s : State α n) (seen : History Nat α) :
    s.loose.iterate program spec system settings elapsed fuel done seen =
      (iterate program penalty system settings elapsed fuel done s seen).loose := by
  induction fuel generalizing done s seen with
  | zero => rfl
  | succ fuel ih =>
      rw [LooseState.iterate, iterate, State.advance_loose hfit]
      cases s.advance program penalty system (done + 1) with
      | error cause => rfl
      | ok step =>
          simp only [Except.mapError, Except.map]
          cases settings.stop? step.record (elapsed (done + 1)) with
          | some stop => rfl
          | none => exact ih (done + 1) step.next (step.record :: seen)

structure LooseResult (α : Type) where
  w : Tensor α
  penalty : α
  alpha : Tensor α
  beta : α
  objective : α
  status : Status
  iterations : Nat
  rho : α
  history : History Nat α

def Result.loose (result : Result α n) : LooseResult α where
  w := .ofVec result.w
  penalty := result.penalty
  alpha := .ofVec result.alpha
  beta := result.beta
  objective := result.objective
  status := result.status
  iterations := result.iterations
  rho := result.rho
  history := result.history

def LooseTrace.result (trace : LooseTrace α) (spec : PenaltySpec α) (rho : α) :
    Except Error (LooseResult α) := do
  let (stop, last) ← trace.ending
  let penalty ← spec.valueAt last.v
  return {
    w := last.v
    penalty
    alpha := last.alpha
    beta := last.beta
    objective := trace.records.getLast?.elim (0 / 0) (·.primal)
    status := stop.status
    iterations := trace.records.length
    rho
    history := trace.records }

theorem Trace.result_loose {spec : PenaltySpec α} {penalty : Penalty α n}
    (hfit : spec.fit n = .ok penalty) (trace : Trace α n) (rho : α) :
    trace.loose.result spec rho =
      ((trace.result penalty rho).mapError .fault).map Result.loose := by
  obtain ⟨records, ending⟩ := trace
  cases ending with
  | error cause => rfl
  | ok ending =>
      obtain ⟨stop, last⟩ := ending
      have hvalue := PenaltySpec.valueAt_ofVec hfit last.v
      simp only [Trace.loose, LooseTrace.result, Except.mapError, Except.map, State.loose,
        hvalue, bind, Except.bind, liftM, monadLift, MonadLift.monadLift,
        MonadLiftT.monadLift]
      rfl

namespace Job

/-- All iterations of a job in arrays. -/
def looseTrace (job : Job α n) (spec : PenaltySpec α) (elapsed : Nat → α) : LooseTrace α :=
  if job.settings.maxIter < countLimit then
    (LooseState.start (.ofVec job.start)).iterate job.program spec job.system job.settings
      elapsed job.settings.maxIter 0 []
  else ⟨[], .error (.fault .tooLarge)⟩

theorem looseTrace_eq {job : Job α n} {spec : PenaltySpec α}
    (hfit : spec.fit n = .ok job.penalty) (elapsed : Nat → α) :
    job.looseTrace spec elapsed = (job.trace elapsed).loose := by
  have hstart : LooseState.start (.ofVec job.start) = (State.start job.start).loose := by
    have hzero : job.start.map (fun _ => (0 : α)) = Vector.replicate n 0 := by
      apply Vec.eq_of_get
      intro i
      rw [Vec.get_map, Vec.get_replicate]
    rw [LooseState.start, Tensor.map_ofVec, hzero, State.loose, State.start]
  rw [looseTrace, trace, hstart]
  split
  · exact iterate_loose hfit job.system job.settings elapsed _ 0 _ []
  · rfl

end Job

end SparseWeights
