import SparseWeights.Proofs.Linear.Vec

/-!
Arrays that are laid out before they are filled. A cell holds nothing until it is
written. It is a fault to name a cell that is not there, to use one that holds
nothing, and to write one of a result twice. A computation without a fault has
therefore stayed within its arrays and used only what it had written itself.
-/

namespace SparseWeights

/-- What can go wrong with cells. -/
inductive CellFault where
  /-- The position is below zero or behind the last cell. -/
  | outOfBounds
  /-- The cell is used before it is written. -/
  | unset
  /-- The cell of a result is written a second time. -/
  | alreadySet
  /-- The number of entries to divide by is not positive. -/
  | noEntries
  deriving DecidableEq, Repr

abbrev Cells (α : Type) (n : Nat) := Vec (Option α) n

namespace Cells

variable {α : Type} {n : Nat}

def unset : Cells α n := Vector.replicate n none

/-- The cell at a position. Positions below zero do not count from the end. -/
def place (i : Int) : Except CellFault (Fin n) :=
  if h : 0 ≤ i ∧ i < n then .ok ⟨i.toNat, by omega⟩ else .error .outOfBounds

def read (cells : Cells α n) (i : Int) : Except CellFault α := do
  let k : Fin n ← place i
  match cells.get k with
  | some x => .ok x
  | none => .error .unset

def write (cells : Cells α n) (i : Int) (x : α) : Except CellFault (Cells α n) := do
  let k : Fin n ← place i
  .ok (cells.set k.val (some x) k.isLt)

/-- Writes a cell of a result. -/
def writeOnce (cells : Cells α n) (i : Int) (x : α) : Except CellFault (Cells α n) := do
  let k : Fin n ← place i
  match cells.get k with
  | some _ => .error .alreadySet
  | none => .ok (cells.set k.val (some x) k.isLt)

theorem place_natCast {k : ℕ} (hk : k < n) : place (k : ℤ) = .ok (⟨k, hk⟩ : Fin n) := by
  simp [place, hk]

@[simp] theorem get_unset (i : Fin n) : Vector.get (unset : Cells α n) i = none := by
  simp [unset]

theorem read_eq_ok_iff {cells : Cells α n} {i : Fin n} {x : α} :
    cells.read i.val = .ok x ↔ cells.get i = some x := by
  simp only [read, place_natCast i.isLt, bind, Except.bind]
  cases cells.get i with
  | none => simp
  | some y => simp

/-- What is read was at a position that names a cell. -/
theorem lt_of_read {cells : Cells α n} {i : ℤ} {x : α} (h : cells.read i = .ok x) :
    0 ≤ i ∧ i < n := by
  by_contra hout
  simp [read, place, hout, bind, Except.bind] at h

theorem write_natCast (cells : Cells α n) {k : ℕ} (hk : k < n) (x : α) :
    cells.write k x = .ok (cells.set k (some x) hk) := by
  simp only [write, place_natCast hk, bind, Except.bind]

theorem writeOnce_eq_ok {cells : Cells α n} {i : Fin n} (hi : cells.get i = none) (x : α) :
    cells.writeOnce i.val x = .ok (cells.set i.val (some x) i.isLt) := by
  simp only [writeOnce, place_natCast i.isLt, bind, Except.bind, hi]

theorem read_set_self (cells : Cells α n) {k : ℕ} (hk : k < n) (x : α) :
    read (cells.set k (some x) hk) k = .ok x := by
  have hcell : Vector.get (cells.set k (some x) hk) ⟨k, hk⟩ = some x := by
    rw [Vec.get_set cells ⟨k, hk⟩, if_pos rfl]
  exact read_eq_ok_iff.mpr hcell

/-- The other cells keep what they hold. -/
theorem read_set_of_ne (cells : Cells α n) {k : ℕ} (hk : k < n) (x : α) {j : ℕ} (hj : j ≠ k) :
    read (cells.set k (some x) hk) j = cells.read j := by
  by_cases hin : j < n
  · have hne : (⟨j, hin⟩ : Fin n) ≠ ⟨k, hk⟩ := fun h => hj (Fin.mk.inj h)
    simp only [read, place_natCast hin, bind, Except.bind, Vec.get_set cells ⟨k, hk⟩, if_neg hne]
  · have hout : ¬((0 : ℤ) ≤ j ∧ (j : ℤ) < n) := by omega
    simp only [read, place, dif_neg hout, bind, Except.bind]

/-- A run of cells that hold nothing yet is written from the first to the last. -/
theorem foldlM_writeOnce (cells : Cells α n) (first count : ℕ) (x : α)
    (hroom : first + count ≤ n)
    (hunset : ∀ k : Fin n, first ≤ k.val → cells.get k = none) :
    ∃ written : Cells α n,
      (List.range count).foldlM (fun cells j => writeOnce cells ((first : ℤ) + (j : ℕ)) x)
        cells = .ok written ∧
      ∀ k, written.get k =
        if first ≤ k.val ∧ k.val < first + count then some x else cells.get k := by
  induction count with
  | zero =>
      refine ⟨cells, rfl, fun k => ?_⟩
      rw [if_neg (by omega)]
  | succ count ih =>
      obtain ⟨written, hrun, hentries⟩ := ih (by omega)
      set last : Fin n := ⟨first + count, by omega⟩ with hlast
      have hfree : written.get last = none := by
        rw [hentries, if_neg (by simp [hlast])]
        exact hunset last (by simp [hlast])
      have hwrite := writeOnce_eq_ok hfree x
      refine ⟨written.set last.val (some x) last.isLt, ?_, fun k => ?_⟩
      · simp only [List.range_succ, List.foldlM_append, List.foldlM_cons, List.foldlM_nil,
          bind_pure, hrun]
        exact hwrite
      · rw [Vec.get_set written last, hentries]
        by_cases hk : k = last
        · rw [if_pos hk, if_pos (by simp [hk, hlast])]
        · have hne : k.val ≠ first + count := fun h => hk (Fin.ext h)
          rw [if_neg hk]
          congr 1
          simp only [eq_iff_iff]
          omega

end Cells

end SparseWeights
