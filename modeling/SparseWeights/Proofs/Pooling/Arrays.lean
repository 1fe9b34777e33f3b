import SparseWeights.Proofs.Pooling.Cells
import SparseWeights.Proofs.Pooling.Stack

/-!
The stack of blocks in four parallel arrays, laid out for as many blocks as there
are entries. Every access is checked: a position outside of the arrays, a cell
that holds nothing yet and a block without entries are faults. Whatever the
arithmetic does, the arrays hold the same stack as the list at any time. So none
of these faults comes up, and the cells in use tell blocks that follow each other
without a gap, from the first entry to the one just done.
-/

namespace SparseWeights

namespace Block

/-- A stack of blocks in arrays. The cells from zero to `top` are in use; `merges`
counts the merges that led there. -/
structure Arrays (α : Type) (n : Nat) where
  firsts : Cells Int n
  lasts : Cells Int n
  totals : Cells α n
  means : Cells α n
  top : Int
  merges : Nat

namespace Arrays

variable {α : Type} {n : Nat}

def empty : Arrays α n := ⟨.unset, .unset, .unset, .unset, -1, 0⟩

/-- Puts a block of one entry on the stack. -/
def start (p : Arrays α n) (i : Int) (x : α) : Except CellFault (Arrays α n) := do
  let top := p.top + 1
  let firsts ← p.firsts.write top i
  let lasts ← p.lasts.write top i
  let totals ← p.totals.write top x
  let means ← p.means.write top x
  .ok { p with firsts, lasts, totals, means, top }

/-- The number of entries of a block, to divide by. -/
def entries (first last : Int) : Except CellFault Nat :=
  if 1 ≤ last - first + 1 then .ok (last - first + 1).toNat else .error .noEntries

/-- The block at a position covers a place. -/
def Covers (p : Arrays α n) (g k : Int) : Prop :=
  ∃ first last, p.firsts.read g = .ok first ∧ p.lasts.read g = .ok last ∧
    first ≤ k ∧ k ≤ last

section Operations

variable [Scalar α]

/-- Merges the block on top into the one below it. -/
def mergeTop (p : Arrays α n) : Except CellFault (Arrays α n) := do
  let below := p.top - 1
  -- The mean is taken from the sum and the end that the block below has by then.
  let totals ← p.totals.write below ((← p.totals.read below) + (← p.totals.read p.top))
  let lasts ← p.lasts.write below (← p.lasts.read p.top)
  let count ← entries (← p.firsts.read below) (← Cells.read lasts below)
  let means ← p.means.write below ((← Cells.read totals below) / Scalar.ofNat count)
  .ok { p with lasts, totals, means, merges := p.merges + 1 }

/-- Merges as long as the block below the one on top has no larger mean. -/
def settleTop (p : Arrays α n) : Except CellFault (Arrays α n) :=
  if 0 < p.top then do
    let lower ← p.means.read (p.top - 1)
    let upper ← p.means.read p.top
    if lower ≤ upper then do
      let merged ← p.mergeTop
      settleTop { merged with top := p.top - 1 }
    else .ok p
  else .ok p
termination_by p.top.toNat
decreasing_by omega

def push (s : Vec α n) (p : Arrays α n) (i : Fin n) : Except CellFault (Arrays α n) := do
  settleTop (← p.start i.val (s.get i))

/-- The arrays after so many entries of a sequence. -/
def after (s : Vec α n) (count : Nat) : Except CellFault (Arrays α n) :=
  ((List.finRange n).take count).foldlM (push s) empty

/-- What the arrays tell after the entry `i`, cell by cell. -/
structure Consistent (p : Arrays α n) (i : Nat) : Prop where
  top_nonneg : 0 ≤ p.top
  /-- No block is empty. -/
  nonempty : ∀ g, 0 ≤ g → g ≤ p.top → ∃ first last,
    p.firsts.read g = .ok first ∧ p.lasts.read g = .ok last ∧ first ≤ last
  /-- The blocks go from the first entry, without a gap, to the one just done. -/
  first_eq : p.firsts.read 0 = .ok 0
  next : ∀ g, 0 ≤ g → g < p.top → ∃ last,
    p.lasts.read g = .ok last ∧ p.firsts.read (g + 1) = .ok (last + 1)
  last_eq : p.lasts.read p.top = .ok (i : Int)
  covers : ∀ k : Int, 0 ≤ k → k ≤ i → ∃! g, (0 ≤ g ∧ g ≤ p.top) ∧ p.Covers g k
  /-- No mean is at most the next one. -/
  falls : ∀ g, 0 ≤ g → g < p.top → ∃ mean next,
    p.means.read g = .ok mean ∧ p.means.read (g + 1) = .ok next ∧ ¬mean ≤ next
  merges_eq : (p.merges : Int) = i - p.top

end Operations

end Arrays

section Parts

variable {α : Type} {stack : List (Block α)}

theorem Tiles.suffix {stop : ℕ} (htiles : Tiles stack stop) {lower : List (Block α)}
    (h : lower <:+ stack) : ∃ stop, Tiles lower stop := by
  induction stack generalizing stop with
  | nil => exact ⟨stop, List.suffix_nil.mp h ▸ htiles⟩
  | cons b rest ih =>
      rcases List.suffix_cons_iff.mp h with rfl | h
      · exact ⟨stop, htiles⟩
      · exact ih htiles.2.2 h

/-- The stack from its bottom up to a block. -/
private theorem exists_suffix {g : ℕ} (hg : g < stack.length) :
    ∃ b rest, b :: rest <:+ stack ∧ rest.length = g := by
  have hlength : (stack.drop (stack.length - (g + 1))).length = g + 1 := by
    rw [List.length_drop]
    omega
  obtain ⟨b, rest, hdrop⟩ := List.exists_cons_of_length_eq_add_one hlength
  refine ⟨b, rest, hdrop ▸ List.drop_suffix _ stack, ?_⟩
  simpa [hdrop] using hlength

/-- The stack from its bottom up to two neighbours. -/
private theorem exists_suffix_pair {g : ℕ} (hg : g + 1 < stack.length) :
    ∃ c b rest, c :: b :: rest <:+ stack ∧ rest.length = g := by
  obtain ⟨c, lower, hsuffix, hlength⟩ := exists_suffix hg
  obtain ⟨b, rest, rfl⟩ := List.exists_cons_of_length_eq_add_one hlength
  exact ⟨c, b, rest, hsuffix, by simpa using hlength⟩

end Parts

namespace Arrays

section Holds

variable {α : Type} {n : Nat}

/-- The cells at one position hold the parts of a block. -/
structure HoldsAt (p : Arrays α n) (g : Int) (b : Block α) : Prop where
  first : p.firsts.read g = .ok (b.first : Int)
  last : p.lasts.read g = .ok (b.last : Int)
  total : p.totals.read g = .ok b.total
  mean : p.means.read g = .ok b.mean

/-- The arrays hold a stack of blocks from its bottom on. Cells above it may hold
anything. -/
def Holds (p : Arrays α n) : List (Block α) → Prop
  | [] => True
  | b :: rest => p.HoldsAt rest.length b ∧ p.Holds rest

variable {p : Arrays α n} {stack : List (Block α)}

theorem HoldsAt.lt {g : ℕ} {b : Block α} (h : p.HoldsAt g b) : g < n := by
  have hin := Cells.lt_of_read h.first
  omega

theorem HoldsAt.covers_iff {g : ℤ} {b : Block α} (h : p.HoldsAt g b) (k : ℤ) :
    p.Covers g k ↔ b.first ≤ k ∧ k ≤ b.last := by
  simp [Covers, h.first, h.last]

theorem Holds.suffix (hp : p.Holds stack) {lower : List (Block α)} (h : lower <:+ stack) :
    p.Holds lower := by
  induction stack with
  | nil => exact List.suffix_nil.mp h ▸ hp
  | cons b rest ih =>
      rcases List.suffix_cons_iff.mp h with rfl | h
      · exact hp
      · exact ih hp.2 h

/-- Only the cells in use count. -/
theorem Holds.congr (hp : p.Holds stack) {q : Arrays α n}
    (hcells : ∀ g : ℕ, g < stack.length → ∀ b, p.HoldsAt g b → q.HoldsAt g b) :
    q.Holds stack := by
  induction stack with
  | nil => trivial
  | cons b rest ih =>
      obtain ⟨htop, hrest⟩ := hp
      refine ⟨hcells _ (Nat.lt_succ_self _) b htop, ih hrest fun g hg => hcells g ?_⟩
      exact hg.trans (Nat.lt_succ_self _)

/-- The blocks of a stack cover no place behind its end. -/
theorem Holds.lt_of_covers (hp : p.Holds stack) {stop : ℕ} (htiles : Tiles stack stop)
    {g : ℕ} (hg : g < stack.length) {k : ℤ} (hcovers : p.Covers g k) : k < stop := by
  induction stack generalizing stop with
  | nil => simp at hg
  | cons b rest ih =>
      obtain ⟨hlast, hb, hrest⟩ := htiles
      rcases (Nat.lt_succ_iff.mp hg).eq_or_lt with rfl | hbelow
      · have hplace := (hp.1.covers_iff k).mp hcovers
        omega
      · have hplace := ih hp.2 hrest hbelow
        omega

/-- The blocks of a stack cover every place in front of its end once. -/
theorem Holds.existsUnique_covers (hp : p.Holds stack) {stop : ℕ} (htiles : Tiles stack stop)
    {k : ℤ} (hk : 0 ≤ k) (hstop : k < stop) :
    ∃! g : ℤ, (0 ≤ g ∧ g < stack.length) ∧ p.Covers g k := by
  induction stack generalizing stop with
  | nil =>
      obtain rfl : stop = 0 := htiles
      omega
  | cons b rest ih =>
      obtain ⟨hlast, hb, hrest⟩ := htiles
      rw [List.length_cons]
      -- Either a block further down covers the place, or the one on top does.
      rcases lt_or_ge k b.first with hbelow | habove
      · obtain ⟨g, ⟨⟨hg, hlength⟩, hcovers⟩, hunique⟩ := ih hp.2 hrest hbelow
        refine ⟨g, ⟨⟨hg, by omega⟩, hcovers⟩, ?_⟩
        rintro other ⟨⟨hother, hle⟩, hcover⟩
        apply hunique
        refine ⟨⟨hother, ?_⟩, hcover⟩
        by_contra htop
        obtain rfl : other = rest.length := by omega
        have hplace := (hp.1.covers_iff k).mp hcover
        omega
      · refine ⟨rest.length, ⟨⟨by omega, by omega⟩, (hp.1.covers_iff k).mpr (by omega)⟩, ?_⟩
        rintro other ⟨⟨hother, hle⟩, hcover⟩
        by_contra hne
        obtain ⟨g, rfl⟩ := Int.eq_ofNat_of_zero_le hother
        have hplace := hp.2.lt_of_covers hrest (by omega) hcover
        omega

theorem start_spec (hp : p.Holds stack) (htop : p.top + 1 = stack.length)
    (hroom : stack.length < n) (i : ℕ) (x : α) :
    ∃ q, p.start i x = .ok q ∧ q.Holds (⟨i, i, x, x⟩ :: stack) ∧ q.top = stack.length ∧
      q.merges = p.merges := by
  refine ⟨⟨p.firsts.set stack.length (some i), p.lasts.set stack.length (some i),
    p.totals.set stack.length (some x), p.means.set stack.length (some x),
    stack.length, p.merges⟩, ?_, ⟨⟨?_, ?_, ?_, ?_⟩, ?_⟩, rfl, rfl⟩
  · simp only [start, htop, Cells.write_natCast _ hroom, bind, Except.bind]
  · exact Cells.read_set_self _ hroom _
  · exact Cells.read_set_self _ hroom _
  · exact Cells.read_set_self _ hroom _
  · exact Cells.read_set_self _ hroom _
  · apply hp.congr
    intro g hg b hb
    exact ⟨(Cells.read_set_of_ne _ hroom _ hg.ne).trans hb.first,
      (Cells.read_set_of_ne _ hroom _ hg.ne).trans hb.last,
      (Cells.read_set_of_ne _ hroom _ hg.ne).trans hb.total,
      (Cells.read_set_of_ne _ hroom _ hg.ne).trans hb.mean⟩

theorem entries_eq {first last : ℕ} (h : first ≤ last) :
    entries first last = .ok (last - first + 1) := by
  have hcount : ((last : ℤ) - first + 1).toNat = last - first + 1 := by omega
  rw [entries, if_pos (by omega), hcount]

end Holds

section Run

variable {α : Type} [Scalar α] {n : Nat} {p : Arrays α n} {stack : List (Block α)}

theorem mergeTop_spec {b c : Block α} {rest : List (Block α)}
    (hp : p.Holds (c :: b :: rest)) (htop : p.top = (rest.length + 1 : ℕ))
    (hplaces : b.first ≤ c.last) :
    ∃ q, p.mergeTop = .ok q ∧ q.Holds (b.merge c :: rest) ∧ q.merges = p.merges + 1 := by
  obtain ⟨hc, hb, hrest⟩ := hp
  rw [List.length_cons] at hc
  have hroom : rest.length < n := hb.lt
  have hbelow : ((rest.length + 1 : ℕ) : ℤ) - 1 = rest.length := by omega
  refine ⟨{ p with
      lasts := p.lasts.set rest.length (some c.last)
      totals := p.totals.set rest.length (some (b.total + c.total))
      means := p.means.set rest.length (some (b.merge c).mean)
      merges := p.merges + 1 }, ?_, ⟨⟨hb.first, ?_, ?_, ?_⟩, ?_⟩, rfl⟩
  · simp only [mergeTop, htop, hbelow, hb.total, hc.total, hc.last, hb.first, bind,
      Except.bind, Cells.write_natCast _ hroom, Cells.read_set_self, entries_eq hplaces]
    rfl
  · exact Cells.read_set_self _ hroom _
  · exact Cells.read_set_self _ hroom _
  · exact Cells.read_set_self _ hroom _
  · apply hrest.congr
    intro g hg b hb
    exact ⟨hb.first, (Cells.read_set_of_ne _ hroom _ hg.ne).trans hb.last,
      (Cells.read_set_of_ne _ hroom _ hg.ne).trans hb.total,
      (Cells.read_set_of_ne _ hroom _ hg.ne).trans hb.mean⟩

/-- The inner loop does in the arrays what settling does to the list, and every
merge takes one block off the stack. -/
theorem settleTop_spec {b : Block α} (hp : p.Holds (b :: stack))
    (htop : p.top = stack.length) (htiles : Tiles stack b.first) (hb : b.first ≤ b.last) :
    ∃ q, p.settleTop = .ok q ∧ q.Holds (settle stack b) ∧
      q.top + 1 = (settle stack b).length ∧
      q.merges + (settle stack b).length = p.merges + stack.length + 1 := by
  induction stack generalizing p b with
  | nil =>
      rw [List.length_nil] at htop
      refine ⟨p, ?_, hp, by simp [settle, htop], by simp [settle]⟩
      rw [settleTop, if_neg (by omega)]
  | cons a rest ih =>
      obtain ⟨hnext, ha, hrest⟩ := htiles
      have hbelow : p.top - 1 = rest.length := by simp [htop]
      have hlower := hp.2.1.mean
      have hupper := hp.1.mean
      rw [← hbelow] at hlower
      rw [← htop] at hupper
      rw [settleTop, if_pos (by simp [htop]), settle]
      simp only [hlower, hupper, bind, Except.bind]
      split
      -- The merged block takes the place of the one below; the loop goes on beneath it.
      · obtain ⟨merged, hmerge, hholds, hmerges⟩ := mergeTop_spec hp htop (by omega)
        have hlowered : Holds { merged with top := p.top - 1 } (a.merge b :: rest) :=
          hholds.congr fun _ _ _ hb => ⟨hb.first, hb.last, hb.total, hb.mean⟩
        obtain ⟨q, hq, hqholds, hqtop, hqmerges⟩ :=
          ih hlowered hbelow hrest (by simp; omega)
        refine ⟨q, ?_, hqholds, hqtop, ?_⟩
        · simp only [hmerge, hq]
        · simp only [hmerges, List.length_cons] at hqmerges ⊢
          omega
      · exact ⟨p, rfl, hp, by simp [htop], by simp; omega⟩

/-- The arrays hold a stack that tiles the places that are done, with falling means;
every place that is done is a block that is left or a merge. -/
structure Shows (p : Arrays α n) (stack : List (Block α)) (done : Nat) : Prop where
  holds : p.Holds stack
  top_eq : p.top + 1 = stack.length
  merges_eq : p.merges + stack.length = done
  tiles : Tiles stack done
  falls : Falls stack

theorem Shows.push {i : Fin n} (hp : p.Shows stack i) (s : Vec α n) :
    ∃ q, p.push s i = .ok q ∧ q.Shows (settle stack (single i (s.get i))) (i + 1) := by
  have hcount := hp.merges_eq
  obtain ⟨q, hstart, hholds, htop, hmerges⟩ :=
    start_spec hp.holds hp.top_eq (by omega) i.val (s.get i)
  obtain ⟨r, hsettle, hrholds, hrtop, hrmerges⟩ :=
    settleTop_spec hholds htop (b := single i (s.get i)) hp.tiles le_rfl
  refine ⟨r, ?_, hrholds, hrtop, by omega,
    settle_tiles stack (single i (s.get i)) hp.tiles le_rfl, settle_falls stack _ hp.falls⟩
  simp only [Arrays.push, hstart, bind, Except.bind, hsettle]

/-- The outer loop never fails, and at any time the arrays hold the blocks of the
entries that are done. -/
theorem after_shows (s : Vec α n) {count : ℕ} (hcount : count ≤ n) :
    ∃ p, after s count = .ok p ∧ p.Shows (ofFirst s count) count := by
  induction count with
  | zero => exact ⟨empty, rfl, trivial, rfl, rfl, rfl, List.isChain_nil⟩
  | succ count ih =>
      obtain ⟨p, hafter, hp⟩ := ih (by omega)
      obtain ⟨q, hpush, hq⟩ := Shows.push (i := ⟨count, hcount⟩) hp s
      refine ⟨q, ?_, ofFirst_succ s hcount ▸ hq⟩
      rw [after] at hafter
      simp only [after, take_finRange_succ hcount, List.foldlM_append, hafter,
        List.foldlM_cons, List.foldlM_nil, bind_pure]
      exact hpush

theorem Shows.top_nonneg {i : ℕ} (hp : p.Shows stack (i + 1)) : 0 ≤ p.top := by
  have htop := hp.top_eq
  cases stack with
  | nil => exact absurd hp.tiles (Nat.succ_ne_zero i)
  | cons b rest =>
      rw [List.length_cons] at htop
      omega

theorem Shows.exists_block {done : ℕ} (hp : p.Shows stack done) {g : ℤ} (hg : 0 ≤ g)
    (hle : g ≤ p.top) :
    ∃ b, p.HoldsAt g b ∧ b.first ≤ b.last ∧ (g = 0 → b.first = 0) ∧
      (g = p.top → b.last + 1 = done) := by
  have htop := hp.top_eq
  obtain ⟨g, rfl⟩ := Int.eq_ofNat_of_zero_le hg
  have hin : g < stack.length := by omega
  obtain ⟨b, lower, hsuffix, rfl⟩ := exists_suffix hin
  obtain ⟨stop, -, hb, hrest⟩ := hp.tiles.suffix hsuffix
  refine ⟨b, (hp.holds.suffix hsuffix).1, hb, fun hbottom => ?_, fun hlast => ?_⟩
  · obtain rfl : lower = [] := List.length_eq_zero_iff.mp (by omega)
    exact hrest
  · obtain rfl := hsuffix.eq_of_length (by rw [List.length_cons]; omega)
    exact hp.tiles.1

theorem Shows.exists_neighbours {done : ℕ} (hp : p.Shows stack done) {g : ℤ} (hg : 0 ≤ g)
    (hlt : g < p.top) :
    ∃ lower upper, p.HoldsAt g lower ∧ p.HoldsAt (g + 1) upper ∧
      lower.last + 1 = upper.first ∧ ¬lower.mean ≤ upper.mean := by
  have htop := hp.top_eq
  obtain ⟨g, rfl⟩ := Int.eq_ofNat_of_zero_le hg
  have hin : g + 1 < stack.length := by omega
  obtain ⟨upper, lower, rest, hsuffix, rfl⟩ := exists_suffix_pair hin
  obtain ⟨stop, -, -, hnext, -, -⟩ := hp.tiles.suffix hsuffix
  obtain ⟨hupper, hlower, -⟩ := hp.holds.suffix hsuffix
  have hmeans := (List.isChain_cons_cons.mp (hp.falls.suffix hsuffix)).1
  exact ⟨lower, upper, hlower, by exact_mod_cast hupper, hnext, hmeans⟩

theorem Shows.consistent {i : ℕ} (hp : p.Shows stack (i + 1)) : p.Consistent i where
  top_nonneg := hp.top_nonneg
  nonempty := by
    intro g hg hle
    obtain ⟨b, hblock, hb, -⟩ := hp.exists_block hg hle
    exact ⟨b.first, b.last, hblock.first, hblock.last, by omega⟩
  first_eq := by
    obtain ⟨b, hblock, -, hfirst, -⟩ := hp.exists_block le_rfl hp.top_nonneg
    rw [hblock.first, hfirst rfl, Nat.cast_zero]
  next := by
    intro g hg hlt
    obtain ⟨lower, upper, hlower, hupper, hnext, -⟩ := hp.exists_neighbours hg hlt
    refine ⟨lower.last, hlower.last, ?_⟩
    rw [hupper.first, ← hnext]
    push_cast
    rfl
  last_eq := by
    obtain ⟨b, hblock, -, -, hlast⟩ := hp.exists_block hp.top_nonneg le_rfl
    rw [hblock.last, Nat.succ_injective (hlast rfl)]
  covers := by
    intro k hk hle
    have hunique := hp.holds.existsUnique_covers hp.tiles hk (by omega)
    simpa only [← hp.top_eq, Int.lt_add_one_iff] using hunique
  falls := by
    intro g hg hlt
    obtain ⟨lower, upper, hlower, hupper, -, hmeans⟩ := hp.exists_neighbours hg hlt
    exact ⟨lower.mean, upper.mean, hlower.mean, hupper.mean, hmeans⟩
  merges_eq := by
    have htop := hp.top_eq
    have hmerges := hp.merges_eq
    omega

end Run

end Arrays

end Block

end SparseWeights
