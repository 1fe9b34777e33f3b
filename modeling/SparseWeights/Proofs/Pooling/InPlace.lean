import SparseWeights.Penalty.Basic
import SparseWeights.Proofs.Pooling.Arrays

/-!
The sorted proximal map in arrays. The stack is kept in the arrays of
`Block.Arrays`; the levels of its blocks are filled into one array and go from
there, with their signs, to the places they came from. The cells of these two
may be written once only. Everything happens in the same order as in lists, and
so the map in arrays ends without a fault, with every cell of its result set to
what the map gives.
-/

namespace SparseWeights

variable {α : Type} [Scalar α] {n : Nat}

namespace Block.Arrays

/-- Writes the level of the block at a position to its places. -/
def fillBlock (p : Arrays α n) (z : Cells α n) (g : Nat) : Except CellFault (Cells α n) := do
  let first ← p.firsts.read g
  let last ← p.lasts.read g
  let mean ← p.means.read g
  (List.range (last + 1 - first).toNat).foldlM
    (fun z (j : Nat) => z.writeOnce (first + j) (Scalar.larger mean 0)) z

/-- The levels of all blocks, from the bottom of the stack on. -/
def fill (p : Arrays α n) : Except CellFault (Cells α n) :=
  (List.range (p.top + 1).toNat).foldlM p.fillBlock .unset

end Block.Arrays

/-- Puts the entries of `z`, with the signs of `y`, back to the places they came from. -/
def scatterCells (order : List (Fin n)) (y : Vec α n) (z : Cells α n) :
    Except CellFault (Cells α n) :=
  (order.zip (List.finRange n)).foldlM (fun out (i, k) => do
    let x ← z.read k.val
    Cells.writeOnce out i.val (Scalar.sign (y.get i) * x)) .unset

/-- The proximal map of the sorted penalty, in arrays. -/
def proxInPlace (y thresholds : Vec α n) : Except CellFault (Cells α n) := do
  let order := Vec.order y
  let blocks ← Block.Arrays.after (reduced order y thresholds) n
  scatterCells order y (← blocks.fill)

namespace Block.Arrays

variable {p : Arrays α n} {stack : List (Block α)}

theorem fillBlock_spec {b : Block α} {g : ℕ} (hblock : p.HoldsAt g b)
    (hb : b.first ≤ b.last) (hroom : b.last < n) {z : Cells α n} {w : Vec α n}
    (hz : ∀ k : Fin n, z.get k = if k.val < b.first then some (w.get k) else none) :
    ∃ filled, p.fillBlock z g = .ok filled ∧ ∀ k : Fin n, filled.get k =
      if k.val < b.last + 1 then some ((Block.fill w b).get k) else none := by
  have hcount : ((b.last : ℤ) + 1 - b.first).toNat = b.last + 1 - b.first := by omega
  obtain ⟨filled, hrun, hentries⟩ := Cells.foldlM_writeOnce z b.first (b.last + 1 - b.first)
    b.level (by omega) fun k hk => by rw [hz, if_neg (by omega)]
  refine ⟨filled, ?_, fun k => ?_⟩
  · simp only [fillBlock, hblock.first, hblock.last, hblock.mean, bind, Except.bind, hcount]
    exact hrun
  · rw [hentries, hz, get_fill]
    rcases lt_trichotomy k.val b.first with hfront | hfirst | hinside
    · rw [if_neg (by omega), if_pos hfront, if_pos (by omega), if_neg (by omega)]
    · rw [if_pos (by omega), if_pos (by omega), if_pos (by omega)]
    · by_cases hlast : k.val ≤ b.last
      · rw [if_pos (by omega), if_pos (by omega), if_pos (by omega)]
      · rw [if_neg (by omega), if_neg (by omega), if_neg (by omega)]

/-- The blocks fill the cells in front of the end of the stack, and no others. -/
theorem foldlM_fillBlock (hp : p.Holds stack) {stop : ℕ} (htiles : Tiles stack stop)
    (hstop : stop ≤ n) (w : Vec α n) :
    ∃ z, (List.range stack.length).foldlM p.fillBlock .unset = .ok z ∧
      ∀ k : Fin n, z.get k =
        if k.val < stop then some ((stack.reverse.foldl Block.fill w).get k) else none := by
  induction stack generalizing stop with
  | nil =>
      obtain rfl : stop = 0 := htiles
      exact ⟨.unset, rfl, fun k => by simp⟩
  | cons b rest ih =>
      obtain ⟨rfl, hb, hrest⟩ := htiles
      obtain ⟨z, hrun, hz⟩ := ih hp.2 hrest (by omega)
      obtain ⟨filled, hfill, hentries⟩ := fillBlock_spec hp.1 hb (by omega) hz
      refine ⟨filled, ?_, ?_⟩
      · simp only [List.length_cons, List.range_succ, List.foldlM_append, hrun,
          List.foldlM_cons, List.foldlM_nil, bind_pure]
        exact hfill
      · simpa [List.foldl_append] using hentries

/-- The fill loop writes every cell once, to what the projection has there. -/
theorem Shows.fill_eq {s : Vec α n} (hp : p.Shows (ofFirst s n) n) :
    p.fill = .ok ((project s).map some) := by
  obtain ⟨z, hrun, hz⟩ := foldlM_fillBlock hp.holds hp.tiles le_rfl (Vector.replicate n 0)
  have hlength : (p.top + 1).toNat = (ofFirst s n).length := by
    rw [hp.top_eq, Int.toNat_natCast]
  rw [fill, hlength, hrun]
  congr 1
  apply Vec.eq_of_get
  intro k
  rw [hz, if_pos k.isLt, ofFirst_all, Vec.get_map]
  rfl

end Block.Arrays

/-- Cells that are still to be written hold nothing; the others hold what the vector
holds. Writing a place of each in turn keeps it so. -/
private theorem foldlM_scatter (y z : Vec α n) {pairs : List (Fin n × Fin n)}
    (hnodup : (pairs.map Prod.fst).Nodup) {out : Cells α n} {w : Vec α n}
    (hout : ∀ i, out.get i = if i ∈ pairs.map Prod.fst then none else some (w.get i)) :
    pairs.foldlM (fun out (i, k) => do
        let x ← Cells.read (z.map some) k.val
        Cells.writeOnce out i.val (Scalar.sign (y.get i) * x)) out =
      .ok ((pairs.foldl (fun w (i, k) =>
        w.set i.val (Scalar.sign (y.get i) * z.get k) i.isLt) w).map some) := by
  induction pairs generalizing out w with
  | nil =>
      have hset : out = w.map some := Vec.eq_of_get fun i => by simp [hout]
      rw [hset]
      rfl
  | cons head rest ih =>
      obtain ⟨i, k⟩ := head
      obtain ⟨hfresh, hrest⟩ := List.nodup_cons.mp hnodup
      have hread : Cells.read (z.map some) k.val = .ok (z.get k) :=
        Cells.read_eq_ok_iff.mpr (Vec.get_map some z k)
      have hunset : out.get i = none := by simp [hout]
      have hwrite := Cells.writeOnce_eq_ok hunset (Scalar.sign (y.get i) * z.get k)
      rw [List.foldlM_cons, List.foldl_cons]
      simp only [hread, bind, Except.bind, hwrite]
      apply ih hrest
      intro j
      rw [Vec.get_set out, Vec.get_set w, hout]
      by_cases hj : j = i
      · subst hj
        rw [if_pos rfl, if_pos rfl, if_neg hfresh]
      · simp [hj]

/-- Every cell of the result is written once if the order names every place once. -/
theorem scatterCells_eq {order : List (Fin n)} (horder : order.Perm (List.finRange n))
    (y z : Vec α n) :
    scatterCells order y (z.map some) =
      .ok ((scatter order y z (Vector.replicate n 0)).map some) := by
  have hplaces : (order.zip (List.finRange n)).map Prod.fst = order :=
    List.map_fst_zip (by simp [horder.length_eq])
  have hentries : z.toList = (List.finRange n).map z.get := by
    rw [Vec.toList_eq_ofFn, List.ofFn_eq_map]
  rw [scatterCells, foldlM_scatter y z (w := Vector.replicate n 0), scatter, hentries,
    List.zip_map_right, List.foldl_map]
  · rfl
  · rw [hplaces]
    exact horder.nodup_iff.mpr (List.nodup_finRange n)
  · intro i
    rw [hplaces, if_pos (horder.mem_iff.mpr (List.mem_finRange i)), Cells.get_unset]

/-- Whatever addition, division and comparison do, the stack in arrays tells at any
time the blocks of the entries that are done. No access is out of bounds, no cell is
used before it is written, and no number to divide by is that of no entries. The
loops come to their end, and they write every cell of the levels and of the result
once. -/
theorem proxInPlace_faultless (s y thresholds : Vec α n) :
    (∀ i : Fin n, ∃ p, Block.Arrays.after s (i + 1) = .ok p ∧
      p.Holds (Block.ofFirst s (i + 1)) ∧ p.top + 1 = (Block.ofFirst s (i + 1)).length ∧
      p.Consistent i) ∧
    (∃ p, Block.Arrays.after s n = .ok p ∧ p.fill = .ok ((project s).map some)) ∧
    proxInPlace y thresholds = .ok ((proxSorted y thresholds).map some) := by
  have hfill (s : Vec α n) :
      ∃ p, Block.Arrays.after s n = .ok p ∧ p.fill = .ok ((project s).map some) := by
    obtain ⟨p, hafter, hp⟩ := Block.Arrays.after_shows s le_rfl
    exact ⟨p, hafter, hp.fill_eq⟩
  refine ⟨fun i => ?_, hfill s, ?_⟩
  · obtain ⟨p, hafter, hp⟩ := Block.Arrays.after_shows s (Nat.succ_le_of_lt i.isLt)
    exact ⟨p, hafter, hp.holds, hp.top_eq, hp.consistent⟩
  · obtain ⟨p, hafter, hlevels⟩ := hfill (reduced (Vec.order y) y thresholds)
    simp only [proxInPlace, hafter, bind, Except.bind, hlevels]
    exact scatterCells_eq (List.mergeSort_perm _ _) y _

/-- The undefined number is not at most another one, nor another one at most it. It
stays a block of its own, and the numbers behind it are pooled all the same. -/
theorem proxInPlace_faultless_undefined :
    ∃ p, Block.Arrays.after (#v[2, 0 / 0, 1, 3] : Vec Float 4) 4 = .ok p ∧
      p.Consistent 3 ∧ p.top = 2 ∧ p.merges = 1 ∧
      p.fill = .ok ((project (#v[2, 0 / 0, 1, 3] : Vec Float 4)).map some) := by
  obtain ⟨hsteps, ⟨p, hafter, hfill⟩, -⟩ := proxInPlace_faultless
    (#v[2, 0 / 0, 1, 3] : Vec Float 4) (Vector.replicate 4 0) (Vector.replicate 4 0)
  obtain ⟨q, hq, -, htop, hconsistent⟩ := hsteps 3
  obtain rfl : q = p := Except.ok.inj (hq.symm.trans hafter)
  have hlength : (Block.ofFirst (#v[2, 0 / 0, 1, 3] : Vec Float 4) 4).length = 3 := by
    decide
  have htwo : q.top = 2 := by
    change q.top + 1 = (Block.ofFirst (#v[2, 0 / 0, 1, 3] : Vec Float 4) 4).length at htop
    omega
  have hmerges : (q.merges : ℤ) = 3 - q.top := hconsistent.merges_eq
  exact ⟨q, hafter, hconsistent, htwo, by omega, hfill⟩

end SparseWeights
