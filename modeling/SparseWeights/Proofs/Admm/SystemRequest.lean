import SparseWeights.Admm.SystemRequest
import SparseWeights.Proofs.Admm.Adapters

/-!
A linear system through any sequence of requests, refused ones among them. What
one request can do is said once, in `Serves`; by induction over the sequence the
matrix stays the one that the system was made of, the step size is the last one
that was put in place, and the factor belongs to both. Nothing depends on the
arithmetic up to here. Over the reals every solution then solves the system of
the step size of the moment.

The system is also kept as separate things that are overwritten one by one. A
request that is refused has overwritten none of them, since the factor is made
before anything is.
-/

namespace SparseWeights.WeightSystem

section Requests

variable {α : Type} [Scalar α] {n : Nat}

/-- What a system can do about a request: the answer and the system that is left. -/
inductive Serves (system : WeightSystem α n) :
    Request α → Except (Refusal α) (Answer α) → WeightSystem α n → Prop
  | kept (rho : α) (hsame : Scalar.same rho system.rho = true) :
      Serves system (.update (.ok rho)) (.ok (.changed false)) system
  | replaced (rho : α) (next : WeightSystem α n)
      (hdiffers : Scalar.same rho system.rho = false)
      (hnext : ofMatrix? system.quadratic rho = some next) :
      Serves system (.update (.ok rho)) (.ok (.changed true)) next
  | refused (rho : α) (hdiffers : Scalar.same rho system.rho = false)
      (hnone : ofMatrix? system.quadratic rho = none) :
      Serves system (.update (.ok rho)) (.error (.noFactor rho)) system
  | unread (cause : Fault) :
      Serves system (.update (.error cause)) (.error (.fault cause)) system
  | solved (rhs : Except Fault (Tensor α)) (x : Tensor α)
      (hx : rhs.bind system.factor.solveAt = .ok x) :
      Serves system (.solve rhs) (.ok (.solution x)) system
  | unsolved (rhs : Except Fault (Tensor α)) (cause : Fault)
      (hcause : rhs.bind system.factor.solveAt = .error cause) :
      Serves system (.solve rhs) (.error (.fault cause)) system

theorem serve_serves (system : WeightSystem α n) (request : Request α) :
    Serves system request (system.serve request).1 (system.serve request).2 := by
  cases request with
  | update rho =>
      cases rho with
      | error cause => exact .unread cause
      | ok rho =>
          cases hsame : Scalar.same rho system.rho with
          | true =>
              simp only [serve, update, hsame, if_true]
              exact .kept rho hsame
          | false =>
              cases hnext : ofMatrix? system.quadratic rho with
              | some next =>
                  simp only [serve, update, hsame, hnext]
                  exact .replaced rho next hsame hnext
              | none =>
                  simp only [serve, update, hsame, hnext]
                  exact .refused rho hsame hnext
  | solve rhs =>
      cases hx : rhs.bind system.factor.solveAt with
      | ok x =>
          simp only [serve, hx]
          exact .solved rhs x hx
      | error cause =>
          simp only [serve, hx]
          exact .unsolved rhs cause hx

variable {system next : WeightSystem α n} {request : Request α}
  {answer : Except (Refusal α) (Answer α)}

theorem Serves.quadratic_eq (h : Serves system request answer next) :
    next.quadratic = system.quadratic := by
  cases h with
  | replaced rho next hdiffers hnext => exact (ofMatrix?_eq_some hnext).1
  | kept | refused | unread | solved | unsolved => rfl

/-- The step size that a request puts in place, if it does. -/
def installed? : Request α → Except (Refusal α) (Answer α) → Option α
  | .update (.ok rho), .ok (.changed true) => some rho
  | _, _ => none

theorem Serves.rho_eq (h : Serves system request answer next) :
    next.rho = (installed? request answer).getD system.rho := by
  cases h with
  | replaced rho next hdiffers hnext => exact (ofMatrix?_eq_some hnext).2
  | kept | refused | unread | solved | unsolved => rfl

/-- Only a new step size leaves another system. -/
theorem Serves.eq_or_differs (h : Serves system request answer next) :
    (answer = .ok (.changed true) ∧ request = .update (.ok next.rho) ∧
      Scalar.same next.rho system.rho = false) ∨
    (answer ≠ .ok (.changed true) ∧ next = system) := by
  cases h with
  | replaced rho next hdiffers hnext =>
      obtain ⟨_, rfl⟩ := ofMatrix?_eq_some hnext
      exact .inl ⟨rfl, rfl, hdiffers⟩
  | kept | refused | unread | solved | unsolved => exact .inr ⟨by simp, rfl⟩

/-- The step sizes that the requests put in place, in order. -/
def installed (system : WeightSystem α n) (requests : List (Request α)) : List α :=
  (requests.zip (system.serveAll requests)).filterMap fun (request, answer, _) =>
    installed? request answer

theorem installed_cons (system : WeightSystem α n) (request : Request α)
    (rest : List (Request α)) :
    system.installed (request :: rest) =
      (installed? request (system.serve request).1).toList ++
        (system.serve request).2.installed rest := by
  simp only [installed, serveAll, List.zip_cons_cons, List.filterMap_cons]
  cases hinstalled : installed? request (system.serve request).1 with
  | none => rfl
  | some rho => rfl

theorem after_cons (system : WeightSystem α n) (request : Request α)
    (rest : List (Request α)) :
    system.after (request :: rest) = (system.serve request).2.after rest := rfl

theorem quadratic_after (system : WeightSystem α n) (requests : List (Request α)) :
    (system.after requests).quadratic = system.quadratic := by
  induction requests generalizing system with
  | nil => rfl
  | cons request rest ih =>
      rw [after_cons, ih, (system.serve_serves request).quadratic_eq]

/-- The step size is the last one that was put in place. -/
theorem rho_after (system : WeightSystem α n) (requests : List (Request α)) :
    (system.after requests).rho = (system.installed requests).getLastD system.rho := by
  induction requests generalizing system with
  | nil => rfl
  | cons request rest ih =>
      rw [after_cons, ih, (system.serve_serves request).rho_eq, installed_cons]
      cases installed? request (system.serve request).1 with
      | none => rfl
      | some rho => rw [Option.toList_some, List.singleton_append, List.getLastD_cons]; rfl

/-- The factor is that of the matrix the system was made of. -/
theorem factor_after {Q : Mat α n n} {rho : α} (hsystem : ofMatrix? Q rho = some system)
    (requests : List (Request α)) :
    Factor.ofMatrix? (Mat.shifted Q (system.after requests).rho) =
      some (system.after requests).factor := by
  rw [← (ofMatrix?_eq_some hsystem).1, ← system.quadratic_after requests]
  exact (system.after requests).factor_eq

/-- What a system keeps, each thing in a place of its own. -/
structure Slots (α : Type) (n : Nat) where
  quadratic : Mat α n n
  rho : α
  factor : Factor α n

def slots (system : WeightSystem α n) : Slots α n :=
  ⟨system.quadratic, system.rho, system.factor⟩

namespace Slots

def read {β : Type} : Except Fault β → ExceptT (Refusal α) (StateM (Slots α n)) β
  | .ok x => pure x
  | .error cause => throw (.fault cause)

/-- Serves a request by assignments. -/
def serve : Request α → ExceptT (Refusal α) (StateM (Slots α n)) (Answer α)
  | .update rho => do
    let rho ← read rho
    let slots ← get
    if Scalar.same rho slots.rho then return .changed false
    else
      match Factor.ofMatrix? (Mat.shifted slots.quadratic rho) with
      | none => throw (.noFactor rho)
      | some factor =>
        modify fun slots => { slots with factor }
        modify fun slots => { slots with rho }
        return .changed true
  | .solve rhs => do
    let slots ← get
    let x ← read (rhs.bind slots.factor.solveAt)
    return .solution x

end Slots

theorem ofMatrix?_eq_none_iff {Q : Mat α n n} {rho : α} :
    ofMatrix? Q rho = none ↔ Factor.ofMatrix? (Mat.shifted Q rho) = none := by
  unfold ofMatrix?
  split
  · rename_i factor hfactor
    simp [hfactor]
  · rename_i hnone
    simp [hnone]

theorem factor_eq_of_ofMatrix? {Q : Mat α n n} {rho : α} (h : ofMatrix? Q rho = some next) :
    Factor.ofMatrix? (Mat.shifted Q rho) = some next.factor := by
  obtain ⟨hquadratic, hrho⟩ := ofMatrix?_eq_some h
  rw [← hquadratic, ← hrho]
  exact next.factor_eq

omit [Scalar α] in
private theorem run_get_bind {β : Type}
    (next : Slots α n → ExceptT (Refusal α) (StateM (Slots α n)) β) (slots : Slots α n) :
    ((get >>= next : ExceptT (Refusal α) (StateM (Slots α n)) β).run).run slots =
      (next slots).run.run slots := rfl

private theorem run_update {slots : Slots α n} {rho : α} :
    (Slots.serve (.update (.ok rho))).run.run slots =
      if Scalar.same rho slots.rho then (.ok (.changed false), slots)
      else (Factor.ofMatrix? (Mat.shifted slots.quadratic rho)).elim
        (.error (.noFactor rho), slots)
        fun factor => (.ok (.changed true), ⟨slots.quadratic, rho, factor⟩) := by
  simp only [Slots.serve, Slots.read, pure_bind, run_get_bind]
  split
  · rfl
  · cases Factor.ofMatrix? (Mat.shifted slots.quadratic rho) with
    | none => rfl
    | some factor => rfl

private theorem run_solve {slots : Slots α n} {rhs : Except Fault (Tensor α)} :
    (Slots.serve (.solve rhs)).run.run slots =
      match rhs.bind slots.factor.solveAt with
      | .ok x => (.ok (.solution x), slots)
      | .error cause => (.error (.fault cause), slots) := by
  rw [Slots.serve, run_get_bind]
  generalize rhs.bind slots.factor.solveAt = x
  cases x with
  | ok x => rfl
  | error cause => rfl

/-- Either way the answers are the same, and so is what is kept. -/
theorem slots_serve (system : WeightSystem α n) (request : Request α) :
    (Slots.serve request).run.run system.slots =
      ((system.serve request).1, (system.serve request).2.slots) := by
  have hserves := system.serve_serves request
  generalize (system.serve request).1 = answer at hserves
  generalize (system.serve request).2 = next at hserves
  cases hserves with
  | kept rho hsame => simp [run_update, slots, hsame]
  | replaced rho next hdiffers hnext =>
      obtain ⟨hquadratic, hrho⟩ := ofMatrix?_eq_some hnext
      simp [run_update, slots, hdiffers, factor_eq_of_ofMatrix? hnext, hquadratic, hrho]
  | refused rho hdiffers hnone =>
      simp [run_update, slots, hdiffers, ofMatrix?_eq_none_iff.mp hnone]
  | unread cause => rfl
  | solved rhs x hx =>
      simp only [run_solve, slots, hx]
  | unsolved rhs cause hcause =>
      simp only [run_solve, slots, hcause]

theorem slots_serveAll (system : WeightSystem α n) (requests : List (Request α)) :
    (requests.mapM fun request => (Slots.serve request).run).run system.slots =
      ((system.serveAll requests).map (·.1), (system.after requests).slots) := by
  induction requests generalizing system with
  | nil => rfl
  | cons request rest ih =>
      rw [List.mapM_cons, StateT.run_bind, slots_serve]
      change (rest.mapM _ >>= _ : StateM _ _).run _ = _
      rw [StateT.run_bind, ih]
      rfl

end Requests

open Matrix

variable {n : ℕ}

theorem toMatrix_shifted (Q : Mat ℝ n n) (rho : ℝ) :
    Mat.toMatrix (Mat.shifted Q rho) =
      Mat.toMatrix Q + rho • (1 + Matrix.of fun _ _ => 1) := by
  ext i j
  simp [Mat.toMatrix_apply, Mat.shifted, Mat.ofFn, Matrix.one_apply, mul_add]

theorem toMatrix_mul_solveColumns {A : Mat ℝ n n} {L : Factor ℝ n}
    (hL : Factor.ofMatrix? A = some L) (hA : (Mat.toMatrix A).IsSymm) {p : ℕ}
    (B : Mat ℝ n p) :
    Mat.toMatrix A * Mat.toMatrix (L.solveColumns B) = Mat.toMatrix B := by
  ext i j
  set column := (Mat.transpose B).get j with hcolumn
  have hentry (k : Fin n) :
      Mat.toMatrix (L.solveColumns B) k j = (L.solve column).get k := by
    simp [Factor.solveColumns, Mat.toMatrix_apply, Mat.transpose, hcolumn]
  have hsolve := congrFun (Factor.mulVec_solve_of_symmetric hL hA column) i
  have hright : column.get i = Mat.toMatrix B i j := by
    simp [hcolumn, Mat.transpose, Mat.toMatrix_apply]
  rw [Matrix.mul_apply, ← hright, ← hsolve]
  simp only [hentry, Matrix.mulVec, dotProduct]

theorem same_eq_false_iff {a b : ℝ} : Scalar.same a b = false ↔ a ≠ b := by
  rw [← not_iff_not, Bool.not_eq_false, not_not, Scalar.same, Bool.and_eq_true,
    decide_eq_true_eq, decide_eq_true_eq, le_antisymm_iff]

/-- Over the reals an answer tells whether the step size is another one now. -/
theorem Serves.changed_iff {system next : WeightSystem ℝ n} {request : Request ℝ}
    {changed : Bool} (h : Serves system request (.ok (.changed changed)) next) :
    changed = true ↔ next.rho ≠ system.rho := by
  rcases h.eq_or_differs with ⟨hchanged, _, hdiffers⟩ | ⟨hchanged, rfl⟩
  · cases hchanged
    simpa using same_eq_false_iff.mp hdiffers
  · have hkept : changed ≠ true := by
      rintro rfl
      exact hchanged rfl
    simpa using hkept

/-- A system never answers from another step size than its own. Whatever has been
asked before and was refused, the step size is the last one put in place, the
factor is that of the matrix for it, a request either puts a new step size in
place or leaves everything as it was, and overwriting step size and factor one
after the other comes to the same. For a symmetric matrix of reals every vector
and every matrix with as many rows has its solution. -/
theorem serves_afresh :
    (∀ {α : Type} [Scalar α] {n : ℕ} {Q : Mat α n n} {rho : α} {system : WeightSystem α n},
      ofMatrix? Q rho = some system → ∀ requests : List (Request α),
      (system.after requests).rho = (system.installed requests).getLastD rho ∧
      Factor.ofMatrix? (Mat.shifted Q (system.after requests).rho) =
        some (system.after requests).factor ∧
      (requests.mapM fun request => (Slots.serve request).run).run system.slots =
        ((system.serveAll requests).map (·.1), (system.after requests).slots) ∧
      ∀ (request : Request α) (answer : Except (Refusal α) (Answer α))
        (next : WeightSystem α n),
        (system.after requests).serve request = (answer, next) →
        (answer = .ok (.changed true) ∧ request = .update (.ok next.rho) ∧
          Scalar.same next.rho (system.after requests).rho = false) ∨
        (answer ≠ .ok (.changed true) ∧ next = system.after requests)) ∧
    ∀ {n : ℕ} {Q : Mat ℝ n n} {rho : ℝ} {system : WeightSystem ℝ n},
      (Mat.toMatrix Q).IsSymm → ofMatrix? Q rho = some system →
      ∀ (requests : List (Request ℝ)),
      (∀ (request : Request ℝ) (changed : Bool) (next : WeightSystem ℝ n),
        (system.after requests).serve request = (.ok (.changed changed), next) →
        (changed = true ↔ next.rho ≠ (system.after requests).rho)) ∧
      (∀ b : Vec ℝ n, ∃ x : Vec ℝ n,
        (system.after requests).serve (.solve (.ok (.ofVec b))) =
          (.ok (.solution (.ofVec x)), system.after requests) ∧
        (Mat.toMatrix Q + (system.after requests).rho • (1 + Matrix.of fun _ _ => 1)) *ᵥ
          x.get = b.get) ∧
      ∀ (p : ℕ) (B : Mat ℝ n p), ∃ X : Mat ℝ n p,
        (system.after requests).serve (.solve (.ok (.ofMat B))) =
          (.ok (.solution (.ofMat X)), system.after requests) ∧
        (Mat.toMatrix Q + (system.after requests).rho • (1 + Matrix.of fun _ _ => 1)) *
          Mat.toMatrix X = Mat.toMatrix B := by
  constructor
  · intro α _ n Q rho system hsystem requests
    refine ⟨?_, factor_after hsystem requests, system.slots_serveAll requests, ?_⟩
    · rw [rho_after, (ofMatrix?_eq_some hsystem).2]
    · intro request answer next hserve
      have hserves := (system.after requests).serve_serves request
      rw [hserve] at hserves
      exact hserves.eq_or_differs
  · intro n Q rho system hQ hsystem requests
    have hfactor := factor_after hsystem requests
    set now := system.after requests with hnow
    have hsymmetric := Mat.shifted_isSymm hQ now.rho
    refine ⟨?_, ?_, ?_⟩
    · intro request changed next hserve
      have hserves := now.serve_serves request
      rw [hserve] at hserves
      exact hserves.changed_iff
    · intro b
      refine ⟨now.factor.solve b, ?_, ?_⟩
      · simp [serve, Except.bind, Factor.solveAt_ofVec]
      · rw [← toMatrix_shifted, Factor.mulVec_solve_of_symmetric hfactor hsymmetric]
    · intro p B
      refine ⟨now.factor.solveColumns B, ?_, ?_⟩
      · simp [serve, Except.bind, Factor.solveAt_ofMat]
      · rw [← toMatrix_shifted, toMatrix_mul_solveColumns hfactor hsymmetric]

theorem pairSystem_form (rho : ℝ) (x : Fin 2 → ℝ) :
    x ⬝ᵥ (Mat.toMatrix (Mat.shifted pairDesign rho) *ᵥ x) =
      x ⬝ᵥ x + rho * (x ⬝ᵥ x + (∑ i, x i) ^ 2) := by
  rw [Mat.shifted_form, pairDesign_toMatrix, Matrix.one_mulVec]

theorem exists_pairSystem {rho : ℝ} (hrho : 0 < rho) :
    ∃ system, ofMatrix? pairDesign rho = some system := by
  have hpos : ∀ x : Fin 2 → ℝ, x ≠ 0 →
      0 < x ⬝ᵥ (Mat.toMatrix (Mat.shifted pairDesign rho) *ᵥ x) := by
    intro x hx
    rw [pairSystem_form]
    have hsquare := dotProduct_self_pos hx
    positivity
  obtain ⟨factor, hfactor⟩ := Factor.exists_ofMatrix?_of_symmetric
    (Mat.shifted_isSymm pairDesign_isSymm rho) hpos
  apply Option.ne_none_iff_exists'.mp
  rw [ne_eq, ofMatrix?_eq_none_iff, hfactor]
  simp

theorem pairSystem_refused : ofMatrix? pairDesign (-5) = none := by
  rw [ofMatrix?_eq_none_iff]
  by_contra hne
  obtain ⟨factor, hfactor⟩ := Option.ne_none_iff_exists'.mp hne
  have hpos := Factor.quadratic_pos_of_symmetric hfactor
    (Mat.shifted_isSymm pairDesign_isSymm (-5)) (Pi.single_ne_zero_iff.mpr one_ne_zero :
      (Pi.single 0 1 : Fin 2 → ℝ) ≠ 0)
  rw [pairSystem_form] at hpos
  norm_num at hpos

/-- On two weights: a new step size, one for which there is no factor, and the one
that is in place already. -/
theorem serves_afresh_pair :
    ∃ system : WeightSystem ℝ 2, ofMatrix? pairDesign 1 = some system ∧
      ∃ now, system.after [.update (.ok 2), .update (.ok (-5)), .update (.ok 2)] = now ∧
        (system.serveAll [.update (.ok 2), .update (.ok (-5)), .update (.ok 2)]).map (·.1) =
          [.ok (.changed true), .error (.noFactor (-5)), .ok (.changed false)] ∧
        now.rho = 2 ∧ Factor.ofMatrix? (Mat.shifted pairDesign 2) = some now.factor ∧
        ∃ x : Vec ℝ 2,
          now.serve (.solve (.ok (.ofVec #v[5, 2]))) = (.ok (.solution (.ofVec x)), now) ∧
          (1 + (2 : ℝ) • (1 + Matrix.of fun _ _ => 1)) *ᵥ x.get = ![5, 2] := by
  obtain ⟨system, hsystem⟩ := exists_pairSystem one_pos
  obtain ⟨next, hnext⟩ := exists_pairSystem two_pos
  obtain ⟨hquadratic, hrho⟩ := ofMatrix?_eq_some hsystem
  obtain ⟨hquadratic', hrho'⟩ := ofMatrix?_eq_some hnext
  have hfirst : system.serve (.update (.ok 2)) = (.ok (.changed true), next) := by
    simp [serve, update, Scalar.same, hquadratic, hrho, hnext]
  have hsecond : next.serve (.update (.ok (-5))) = (.error (.noFactor (-5)), next) := by
    have hdiffers : Scalar.same (-5) next.rho = false := by
      rw [same_eq_false_iff, hrho']
      norm_num
    simp [serve, update, hdiffers, hquadratic', pairSystem_refused]
  have hthird : next.serve (.update (.ok 2)) = (.ok (.changed false), next) := by
    simp [serve, update, Scalar.same, hrho']
  set requests : List (Request ℝ) := [.update (.ok 2), .update (.ok (-5)), .update (.ok 2)]
    with hrequests
  have hafter : system.after requests = next := by
    simp [hrequests, after, hfirst, hsecond, hthird]
  obtain ⟨hstate, hsolve⟩ := serves_afresh
  obtain ⟨_, hfactor, _⟩ := hstate hsystem requests
  obtain ⟨_, hvector, _⟩ := hsolve pairDesign_isSymm hsystem requests
  obtain ⟨x, hx, hsolution⟩ := hvector #v[5, 2]
  rw [hafter, hrho'] at hfactor hsolution
  rw [hafter] at hx
  rw [pairDesign_toMatrix] at hsolution
  refine ⟨system, hsystem, next, hafter, ?_, hrho', hfactor, x, hx, ?_⟩
  · simp [hrequests, serveAll, hfirst, hsecond, hthird]
  · rw [hsolution]
    funext i
    fin_cases i
    · rfl
    · rfl

end SparseWeights.WeightSystem
