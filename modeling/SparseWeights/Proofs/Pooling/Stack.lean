import SparseWeights.Penalty.Pooling
import SparseWeights.Proofs.Linear.Vec

/-!
The stack of blocks, whatever the arithmetic does. The blocks tile the places
that have been taken so far, and no block has a mean that is not larger than
the mean of the block on top of it. Nothing here uses a law of order or
addition, so all of it holds for doubles with NaN as well. The last part says
what the fill loop writes: a place gets the level of the block that covers it.
-/

namespace SparseWeights

namespace Block

variable {α : Type} [Scalar α]

/-- The blocks of a stack, the last one on top, cover the places below `stop`
exactly once and in order. -/
def Tiles : List (Block α) → Nat → Prop
  | [], stop => stop = 0
  | b :: rest, stop => b.last + 1 = stop ∧ b.first ≤ b.last ∧ Tiles rest b.first

/-- Every block has a mean that is not at most that of the one on top of it. -/
def Falls (stack : List (Block α)) : Prop :=
  stack.IsChain fun upper lower => ¬ lower.mean ≤ upper.mean

omit [Scalar α] in
theorem Tiles.first_le_last {stack : List (Block α)} {stop : Nat} (htiles : Tiles stack stop)
    {b : Block α} (hb : b ∈ stack) : b.first ≤ b.last := by
  induction stack generalizing stop with
  | nil => simp at hb
  | cons top rest ih =>
      obtain ⟨_, htop, hrest⟩ := htiles
      rcases List.mem_cons.mp hb with rfl | hb
      · exact htop
      · exact ih hrest hb

@[simp] theorem merge_first (b c : Block α) : (b.merge c).first = b.first := rfl

@[simp] theorem merge_last (b c : Block α) : (b.merge c).last = c.last := rfl

@[simp] theorem merge_total (b c : Block α) :
    (b.merge c).total = b.total + c.total := rfl

theorem settle_tiles (stack : List (Block α)) (b : Block α)
    (hstack : Tiles stack b.first) (hb : b.first ≤ b.last) :
    Tiles (settle stack b) (b.last + 1) := by
  induction stack generalizing b with
  | nil => exact ⟨rfl, hb, hstack⟩
  | cons top rest ih =>
      obtain ⟨hnext, htop, hrest⟩ := hstack
      unfold settle
      split
      · exact ih (top.merge b) hrest (by simp; omega)
      · exact ⟨rfl, hb, hnext, htop, hrest⟩

theorem settle_falls (stack : List (Block α)) (b : Block α)
    (hstack : Falls stack) : Falls (settle stack b) := by
  induction stack generalizing b with
  | nil => exact List.isChain_singleton b
  | cons top rest ih =>
      unfold settle
      split
      · exact ih (top.merge b) hstack.tail
      · rename_i hmean
        exact List.isChain_cons_cons.mpr ⟨hmean, hstack⟩

/-- What merging keeps for neighbours, settling keeps for a whole stack. -/
theorem settle_forall {P : Block α → Prop}
    (hmerge : ∀ b c, P b → P c → b.first ≤ b.last → c.first ≤ c.last →
      b.last + 1 = c.first → b.mean ≤ c.mean → P (b.merge c))
    (stack : List (Block α)) (b : Block α) (htiles : Tiles stack b.first)
    (hb : b.first ≤ b.last) (hstack : ∀ c ∈ stack, P c) (hP : P b) :
    ∀ c ∈ settle stack b, P c := by
  induction stack generalizing b with
  | nil => simpa [settle] using hP
  | cons top rest ih =>
      obtain ⟨hnext, htop, hrest⟩ := htiles
      have hPtop : P top := hstack top (by simp)
      have hPrest : ∀ c ∈ rest, P c := fun c hc => hstack c (by simp [hc])
      unfold settle
      split
      · rename_i hmean
        exact ih (top.merge b) hrest (by simp; omega) hPrest
          (hmerge top b hPtop hP htop hb hnext hmean)
      · intro c hc
        rcases List.mem_cons.mp hc with rfl | hc
        · exact hP
        · exact hstack c hc

/-- The blocks of the first entries of a sequence. -/
def ofFirst {n : Nat} (s : Vec α n) (count : Nat) : List (Block α) :=
  ((List.finRange n).take count).foldl
    (fun stack (i : Fin n) => settle stack (single i (s.get i))) []

theorem ofFirst_all {n : Nat} (s : Vec α n) : ofFirst s n = ofSequence s := by
  rw [ofFirst, List.take_of_length_le (by simp), ofSequence]

theorem take_finRange_succ {n k : Nat} (hk : k < n) :
    (List.finRange n).take (k + 1) = (List.finRange n).take k ++ [⟨k, hk⟩] := by
  rw [List.take_succ_eq_append_getElem (by simpa using hk)]
  simp

theorem ofFirst_succ {n k : Nat} (s : Vec α n) (hk : k < n) :
    ofFirst s (k + 1) = settle (ofFirst s k) (single k (s.get ⟨k, hk⟩)) := by
  rw [ofFirst, take_finRange_succ hk, List.foldl_append]
  rfl

/-- The stack of a sequence tiles its places, its means fall, and its blocks
have every property of single entries that merging neighbours keeps. -/
theorem ofSequence_invariant {n : Nat} {P : Block α → Prop} (s : Vec α n)
    (hsingle : ∀ i : Fin n, P (single i (s.get i)))
    (hmerge : ∀ b c, P b → P c → b.first ≤ b.last → c.first ≤ c.last →
      b.last + 1 = c.first → b.mean ≤ c.mean → P (b.merge c)) :
    Tiles (ofSequence s) n ∧ Falls (ofSequence s) ∧
      ∀ b ∈ ofSequence s, P b := by
  have hfirst : ∀ k ≤ n, Tiles (ofFirst s k) k ∧ Falls (ofFirst s k) ∧
      ∀ b ∈ ofFirst s k, P b := by
    intro k hk
    induction k with
    | zero => exact ⟨rfl, List.isChain_nil, by simp [ofFirst]⟩
    | succ k ih =>
        obtain ⟨htiles, hfalls, hP⟩ := ih (by omega)
        rw [ofFirst_succ s hk]
        exact ⟨settle_tiles _ (single k _) htiles le_rfl, settle_falls _ _ hfalls,
          settle_forall hmerge _ (single k _) htiles le_rfl hP (hsingle ⟨k, hk⟩)⟩
  rw [← ofFirst_all]
  exact hfirst n le_rfl

theorem ofSequence_tiles {n : Nat} (s : Vec α n) : Tiles (ofSequence s) n :=
  (ofSequence_invariant (P := fun _ => True) s (fun _ => trivial)
    fun _ _ _ _ _ _ _ _ => trivial).1

/-- The level of the topmost block that covers a place, or `other`. -/
def levelAt (other : α) : List (Block α) → Nat → α
  | [], _ => other
  | b :: rest, k =>
    if b.first ≤ k ∧ k ≤ b.last then b.level else levelAt other rest k

theorem levelAt_of_le {stack : List (Block α)} {stop : Nat} (other : α)
    (htiles : Tiles stack stop) {k : Nat} (hk : stop ≤ k) :
    levelAt other stack k = other := by
  induction stack generalizing stop with
  | nil => rfl
  | cons b rest ih =>
      obtain ⟨hlast, hb, hrest⟩ := htiles
      rw [levelAt, if_neg (by omega)]
      exact ih hrest (by omega)

omit [Scalar α] in
private theorem get_foldl_set {n : Nat} (x : α) (places : List Nat)
    (z : Vec α n) (k : Fin n) :
    (places.foldl (fun z i => z.setIfInBounds i x) z).get k =
      if k.val ∈ places then x else z.get k := by
  induction places generalizing z with
  | nil => simp
  | cons i rest ih =>
      rw [List.foldl_cons, ih]
      by_cases hrest : k.val ∈ rest
      · simp [hrest]
      · by_cases hi : i = k.val
        · simp [hrest, hi, Vec.get_eq_getElem]
        · simp [hrest, hi, Ne.symm hi, Vec.get_eq_getElem]

theorem get_fill {n : Nat} (z : Vec α n) (b : Block α) (k : Fin n) :
    (fill z b).get k =
      if b.first ≤ k.val ∧ k.val ≤ b.last then b.level else z.get k := by
  have hplaces : k.val ∈ List.range' b.first (b.last + 1 - b.first) ↔
      b.first ≤ k.val ∧ k.val ≤ b.last := by
    rw [List.mem_range'_1]
    omega
  rw [fill, get_foldl_set]
  simp only [hplaces]

end Block

/-- The fill loop writes to every place the level of the block over it. -/
theorem projectOver_get {α : Type} [Scalar α] {n : Nat} (z s : Vec α n)
    (k : Fin n) :
    (projectOver z s).get k =
      Block.levelAt (z.get k) (Block.ofSequence s) k.val := by
  rw [projectOver, List.foldl_reverse]
  induction Block.ofSequence s with
  | nil => rfl
  | cons b rest ih =>
      rw [List.foldr_cons, Block.get_fill, Block.levelAt, ih]

theorem project_get {α : Type} [Scalar α] {n : Nat} (s : Vec α n) (k : Fin n) :
    (project s).get k = Block.levelAt 0 (Block.ofSequence s) k.val := by
  rw [project, projectOver_get, Vec.get_replicate]

end SparseWeights
