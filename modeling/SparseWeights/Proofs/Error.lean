import SparseWeights.Error

/-!
Computations that may be refused. One that comes to an end did so in each of its
parts, and a part keeps its value where it passes among other errors.
-/

namespace SparseWeights

theorem bind_eq_ok_iff {ε α β : Type} {x : Except ε α} {next : α → Except ε β} {b : β} :
    x >>= next = .ok b ↔ ∃ a, x = .ok a ∧ next a = .ok b := by
  cases x with
  | error e => simp [bind, Except.bind]
  | ok a => simp [bind, Except.bind]

theorem bind_eq_error_iff {ε α β : Type} {x : Except ε α} {next : α → Except ε β} {e : ε} :
    x >>= next = .error e ↔ x = .error e ∨ ∃ a, x = .ok a ∧ next a = .error e := by
  cases x with
  | error cause => simp [bind, Except.bind]
  | ok a => simp [bind, Except.bind]

theorem map_eq_ok_iff {ε α β : Type} {x : Except ε α} {f : α → β} {b : β} :
    x.map f = .ok b ↔ ∃ a, x = .ok a ∧ f a = b := by
  cases x with
  | error e => simp [Except.map]
  | ok a => simp [Except.map]

theorem map_eq_error_iff {ε α β : Type} {x : Except ε α} {f : α → β} {e : ε} :
    x.map f = .error e ↔ x = .error e := by
  cases x <;> simp [Except.map]

/-- A computation over a list fails at the first of the items that it fails for. -/
theorem mapM_eq_error_iff {ε α β : Type} {f : α → Except ε β} {xs : List α} {e : ε} :
    xs.mapM f = .error e ↔ ∃ before x after, xs = before ++ x :: after ∧
      (∀ y ∈ before, ∃ b, f y = .ok b) ∧ f x = .error e := by
  induction xs with
  | nil => simp [pure, Except.pure]
  | cons x rest ih =>
      rw [List.mapM_cons, bind_eq_error_iff]
      constructor
      · rintro (hfirst | ⟨b, hfirst, h⟩)
        · exact ⟨[], x, rest, rfl, by simp, hfirst⟩
        · obtain hrest | ⟨_, _, hpure⟩ := bind_eq_error_iff.mp h
          · obtain ⟨before, y, after, rfl, hbefore, hy⟩ := ih.mp hrest
            refine ⟨x :: before, y, after, rfl, ?_, hy⟩
            exact List.forall_mem_cons.mpr ⟨⟨b, hfirst⟩, hbefore⟩
          · cases hpure
      · rintro ⟨before, y, after, hsplit, hbefore, hy⟩
        cases before with
        | nil =>
            obtain ⟨rfl, rfl⟩ := List.cons.inj hsplit
            exact .inl hy
        | cons first before =>
            obtain ⟨rfl, rfl⟩ := List.cons.inj hsplit
            obtain ⟨⟨b, hfirst⟩, hbefore⟩ := List.forall_mem_cons.mp hbefore
            have hrest := ih.mpr ⟨before, y, after, rfl, hbefore, hy⟩
            exact .inr ⟨b, hfirst, bind_eq_error_iff.mpr (.inl hrest)⟩

/-- A computation over the images of items comes to an end where it does for each. -/
theorem mapM_map_eq_ok {ε α β γ : Type} {f : β → Except ε γ} {g : α → β} {h : α → γ}
    {xs : List α} (hx : ∀ x ∈ xs, f (g x) = .ok (h x)) :
    (xs.map g).mapM f = .ok (xs.map h) := by
  induction xs with
  | nil => rfl
  | cons x rest ih =>
      rw [List.map_cons, List.mapM_cons, hx x List.mem_cons_self,
        ih fun y hy => hx y (List.mem_cons_of_mem _ hy)]
      rfl

theorem elim_ne_error {ε β : Type} {cause other : ε} (h : cause ≠ other) (x : Option β) :
    x.elim (.error cause) .ok ≠ (.error other : Except ε β) := by
  cases x with
  | none => exact fun heq => h (Except.error.inj heq)
  | some y => rintro ⟨⟩

theorem liftM_fault_eq_ok_iff {α : Type} {x : Except Fault α} {a : α} :
    (liftM x : Except Error α) = .ok a ↔ x = .ok a := by
  cases x with
  | error cause => simp [liftM, monadLift, MonadLift.monadLift]
  | ok b => simp [liftM, monadLift, MonadLift.monadLift]

theorem liftM_fault_ok_bind {α β : Type} (a : α) (next : α → Except Error β) :
    ((liftM (.ok a : Except Fault α) : Except Error α) >>= next) = next a := rfl

theorem liftM_invalid_eq_error_iff {α : Type} {x : Except Invalid α} {e : Error} :
    (liftM x : Except Error α) = .error e ↔ ∃ cause, x = .error cause ∧ e = .invalid cause := by
  cases x with
  | error cause => simp [liftM, monadLift, MonadLift.monadLift, eq_comm]
  | ok b => simp [liftM, monadLift, MonadLift.monadLift]

theorem liftM_invalid_eq_ok_iff {α : Type} {x : Except Invalid α} {a : α} :
    (liftM x : Except Error α) = .ok a ↔ x = .ok a := by
  cases x with
  | error cause => simp [liftM, monadLift, MonadLift.monadLift]
  | ok b => simp [liftM, monadLift, MonadLift.monadLift]

end SparseWeights
