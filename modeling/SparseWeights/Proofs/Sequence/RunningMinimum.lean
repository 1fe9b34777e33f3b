import SparseWeights.Penalty.Spec
import SparseWeights.Proofs.Binary.Special
import SparseWeights.Sequence.Basic

/-!
The running minimum of doubles as factors. It falls, whatever the entries are, unless NaN is
among them; and it is accepted as the factors of a sorted penalty exactly if the first entry
is finite and none is below zero or NaN.
-/

namespace SparseWeights

open Binary

namespace Sequence

variable {least x : Float} {xs : List Float}

/-- Entries that a sorted penalty accepts: finite, not negative, and none larger than the one
before it. -/
structure Accepted (xs : List Float) : Prop where
  isFinite : ∀ x ∈ xs, x.isFinite = true
  nonneg : ∀ x ∈ xs, 0 ≤ x
  chain : xs.IsChain fun x y => y ≤ x

theorem minNaN_cases (hleast : least.isFinite = true) :
    least ≤ x ∧ Scalar.minNaN least x = least ∨ ¬least ≤ x ∧ Scalar.minNaN least x = x := by
  have hnan : ¬Scalar.isNaN least = true := by
    simpa [Scalar.isNaN] using le_self hleast
  rw [Scalar.minNaN]
  by_cases hle : least ≤ x
  · exact .inl ⟨hle, if_pos (.inl hle)⟩
  · exact .inr ⟨hle, if_neg (not_or.mpr ⟨hle, hnan⟩)⟩

theorem minNaN_spec (hleast : least.isFinite = true) (hnonneg : 0 ≤ least) (hx : 0 ≤ x) :
    (Scalar.minNaN least x).isFinite = true ∧ 0 ≤ Scalar.minNaN least x ∧
      Scalar.minNaN least x ≤ least := by
  obtain ⟨_, hmin⟩ | ⟨hnot, hmin⟩ := minNaN_cases (x := x) hleast
  · rw [hmin]
    exact ⟨hleast, hnonneg, le_self hleast⟩
  · obtain ⟨hfinite, hle⟩ := isFinite_of_not_le hx hleast hnot
    rw [hmin]
    exact ⟨hfinite, hx, hle⟩

/-- The running minimum of entries that are not negative, from a finite one on. -/
theorem runningMinFrom_accepted (hleast : least.isFinite = true) (hnonneg : 0 ≤ least)
    (hxs : ∀ x ∈ xs, 0 ≤ x) : Accepted (runningMinFrom least xs) := by
  induction xs generalizing least with
  | nil =>
      refine ⟨by simpa [runningMinFrom] using hleast, by simpa [runningMinFrom] using hnonneg, ?_⟩
      simp [runningMinFrom]
  | cons x rest ih =>
      obtain ⟨hx, hrest⟩ := List.forall_mem_cons.mp hxs
      obtain ⟨hfinite, hmin, hle⟩ := minNaN_spec hleast hnonneg hx
      obtain ⟨hall, hpos, hchain⟩ := ih hfinite hmin hrest
      refine ⟨List.forall_mem_cons.mpr ⟨hleast, hall⟩, List.forall_mem_cons.mpr ⟨hnonneg, hpos⟩, ?_⟩
      rw [runningMinFrom]
      cases rest with
      | nil => simpa [runningMinFrom] using hle
      | cons y rest => exact List.isChain_cons_cons.mpr ⟨hle, hchain⟩

/-- A running minimum without NaN and without negative entries has none of them underneath. -/
theorem nonneg_of_runningMinFrom (hfinite : ∀ y ∈ runningMinFrom least xs, y.isFinite = true)
    (hnonneg : ∀ y ∈ runningMinFrom least xs, 0 ≤ y) :
    least.isFinite = true ∧ 0 ≤ least ∧ ∀ y ∈ xs, 0 ≤ y := by
  induction xs generalizing least with
  | nil =>
      simp only [runningMinFrom, List.forall_mem_singleton] at hfinite hnonneg
      exact ⟨hfinite, hnonneg, by simp⟩
  | cons x rest ih =>
      obtain ⟨hleast, hfinite⟩ := List.forall_mem_cons.mp hfinite
      obtain ⟨hpos, hnonneg⟩ := List.forall_mem_cons.mp hnonneg
      obtain ⟨_, hmin, hrest⟩ := ih hfinite hnonneg
      refine ⟨hleast, hpos, List.forall_mem_cons.mpr ⟨?_, hrest⟩⟩
      obtain ⟨hle, _⟩ | ⟨_, hx⟩ := minNaN_cases (x := x) hleast
      · exact le_chain hpos hle
      · rwa [hx] at hmin

theorem length_runningMinFrom (least : Float) (xs : List Float) :
    (runningMinFrom least xs).length = xs.length + 1 := by
  induction xs generalizing least with
  | nil => rfl
  | cons x rest ih => rw [runningMinFrom, List.length_cons, ih, List.length_cons]

/-- The running minimum is accepted exactly if the first entry is finite and no entry is below zero
or NaN. -/
theorem runningMin_accepted_iff :
    Accepted (runningMin (x :: xs)) ↔ x.isFinite = true ∧ ∀ y ∈ x :: xs, 0 ≤ y := by
  rw [List.forall_mem_cons]
  exact ⟨fun h => nonneg_of_runningMinFrom h.isFinite h.nonneg,
    fun ⟨hfinite, hpos, hxs⟩ => runningMinFrom_accepted hfinite hpos hxs⟩

theorem ascends_eq_false (hfinite : ∀ x ∈ xs, x.isFinite = true)
    (hchain : xs.IsChain fun x y => y ≤ x) : PenaltySpec.ascends xs = false := by
  induction xs with
  | nil => rfl
  | cons x rest ih =>
      cases rest with
      | nil => rfl
      | cons y rest =>
          obtain ⟨hx, hrest⟩ := List.forall_mem_cons.mp hfinite
          obtain ⟨hle, hchain⟩ := List.isChain_cons_cons.mp hchain
          have hy := hrest y List.mem_cons_self
          have hfall : y - x ≤ 0 := by
            refine (isRounded_sub hy hx).ge isFinite_zero ?_
            rw [number_zero, sub_nonpos]
            exact (le_iff_number hy hx).mp hle
          have hnot : ¬0 < y - x := not_lt_of_le hfall
          simp [PenaltySpec.ascends, hnot, ih hrest hchain]

/-- Entries with their running minimum make up a penalty on as many weights exactly if the first
one is finite and none is below zero or NaN. -/
theorem ofFactors_runningMin_iff {count : ℤ} {spec : PenaltySpec Float} :
    PenaltySpec.ofFactors (runningMin (x :: xs)) (some count) = .ok spec ↔
      spec = .sortedL1 (runningMin (x :: xs)) ∧ count = (x :: xs).length ∧
        x.isFinite = true ∧ ∀ y ∈ x :: xs, 0 ≤ y := by
  have hlength : (runningMin (x :: xs)).length = (x :: xs).length := length_runningMinFrom x xs
  constructor
  · intro h
    rw [PenaltySpec.ofFactors] at h
    split at h
    · cases h
    next hcount =>
      split at h
      · cases h
      split at h
      · cases h
      next hfinite =>
        split at h
        · cases h
        next hnegative =>
          split at h
          · cases h
          simp only [Option.any_some, decide_eq_true_eq, not_not] at hcount
          simp only [List.any_eq_true, Bool.not_eq_true', not_exists, not_and,
            Bool.not_eq_false] at hfinite
          simp only [List.any_eq_true, decide_eq_true_eq, not_exists, not_and] at hnegative
          have hnonneg : ∀ y ∈ runningMin (x :: xs), 0 ≤ y := fun y hy =>
            (not_lt_iff (hfinite y hy) isFinite_zero).mp (hnegative y hy)
          refine ⟨(Except.ok.inj h).symm, by rw [hcount, hlength], ?_⟩
          exact (nonneg_of_runningMinFrom hfinite hnonneg).imp_right List.forall_mem_cons.mpr
  · rintro ⟨rfl, rfl, hfinite, hnonneg⟩
    obtain ⟨hall, hpos, hchain⟩ := runningMin_accepted_iff.mpr ⟨hfinite, hnonneg⟩
    have hfiniteAll : ((runningMin (x :: xs)).any fun y => !Scalar.isFinite y) = false := by
      rw [List.any_eq_false]
      intro y hy
      rw [show Scalar.isFinite y = true from hall y hy]
      decide
    have hnegative : ((runningMin (x :: xs)).any fun y => decide (y < 0)) = false := by
      simpa using fun y hy => not_lt_of_le (hpos y hy)
    have hne : (runningMin (x :: xs)).isEmpty = false := by
      rw [List.isEmpty_eq_false_iff, ← List.length_pos_iff, hlength]
      exact Nat.succ_pos _
    simp [PenaltySpec.ofFactors, hlength, hne, hfiniteAll, hnegative,
      ascends_eq_false hall hchain]

end Sequence

end SparseWeights
