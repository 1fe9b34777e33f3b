import SparseWeights.Proofs.Falling
import SparseWeights.Proofs.Pooling.Stack

/-!
Pooling is the projection onto the falling sequences that are not negative.
`IsProjection` states the conditions that single that projection out: the
result falls, is not negative, its sums of first entries are at least those of
the input, and they agree wherever the result drops. The blocks of the stack
supply them: within a block no start has a larger mean than the whole.
-/

namespace SparseWeights

open Finset

/-- The sequence `z` is the projection of the first `n` entries of `s` onto
the falling sequences that are not negative. -/
structure IsProjection (n : ℕ) (s z : ℕ → ℝ) : Prop where
  antitone : Antitone z
  zero_of_le : ∀ k, n ≤ k → z k = 0
  prefix_le : ∀ m ≤ n, ∑ k ∈ range m, s k ≤ ∑ k ∈ range m, z k
  prefix_eq_of_drop : ∀ m < n, z (m + 1) < z m →
    ∑ k ∈ range (m + 1), s k = ∑ k ∈ range (m + 1), z k

/-- A block holds the sum and the mean of its entries, and none of its starts
has a larger mean. -/
structure Block.Pooled (s : ℕ → ℝ) (b : Block ℝ) : Prop where
  total_eq : b.total = ∑ k ∈ Ico b.first (b.last + 1), s k
  mean_eq : ((b.last : ℝ) + 1 - b.first) * b.mean = b.total
  start_le : ∀ m, b.first ≤ m → m ≤ b.last + 1 →
    ∑ k ∈ Ico b.first m, s k ≤ ((m : ℝ) - b.first) * b.mean

namespace Block

variable {s : ℕ → ℝ}

theorem pooled_single {n : ℕ} (v : Vec ℝ n) (i : Fin n) :
    Pooled (Falling.extend v.get) (single i.val (v.get i)) := by
  refine ⟨?_, ?_, ?_⟩
  · simp [single]
  · simp [single]
  · intro m hfirst hlast
    simp only [single] at hfirst hlast ⊢
    obtain rfl | rfl : m = i.val ∨ m = i.val + 1 := by omega
    · simp
    · simp

/-- Merging neighbours out of order pools their entries: the common mean lies
between the two, so a start has no larger mean on either side of the seam. -/
theorem pooled_merge {b c : Block ℝ} (hb : Pooled s b) (hc : Pooled s c)
    (hbplaces : b.first ≤ b.last) (hcplaces : c.first ≤ c.last)
    (hnext : b.last + 1 = c.first) (hmean : b.mean ≤ c.mean) :
    Pooled s (b.merge c) := by
  have hcount : ((c.last - b.first + 1 : ℕ) : ℝ) = (c.last : ℝ) + 1 - b.first := by
    rw [Nat.cast_add, Nat.cast_sub (by omega)]
    push_cast
    ring
  have hseam : (b.last : ℝ) + 1 = c.first := by exact_mod_cast hnext
  have hfirst : (b.first : ℝ) < c.first := by exact_mod_cast (by omega)
  have hlast : (c.first : ℝ) < c.last + 1 := by exact_mod_cast (by omega)
  have hmerged : (c.last + 1 - b.first : ℝ) * (b.merge c).mean =
      b.total + c.total := by
    simp only [merge, Scalar.ofNat_eq_cast, hcount]
    field_simp [(by linarith : (c.last : ℝ) + 1 - b.first ≠ 0)]
  have hbmean := hb.mean_eq
  have hcmean := hc.mean_eq
  rw [hseam] at hbmean
  set mean := (b.merge c).mean with hmeandef
  have hwhole : (0 : ℝ) < c.last + 1 - b.first := by linarith
  have hlow : b.mean ≤ mean := by
    have hgap := mul_nonneg (sub_nonneg.mpr hlast.le) (sub_nonneg.mpr hmean)
    apply le_of_mul_le_mul_left _ hwhole
    linarith
  have hhigh : mean ≤ c.mean := by
    have hgap := mul_nonneg (sub_nonneg.mpr hfirst.le) (sub_nonneg.mpr hmean)
    apply le_of_mul_le_mul_left _ hwhole
    linarith
  refine ⟨?_, hmerged, ?_⟩
  · rw [merge_total, merge_first, merge_last, hb.total_eq, hc.total_eq, hnext]
    exact sum_Ico_consecutive s (by omega) (by omega)
  · intro m hmfirst hmlast
    simp only [merge_first, merge_last] at hmfirst hmlast ⊢
    rcases le_total m c.first with hm | hm
    · have hstart := hb.start_le m hmfirst (by omega)
      have hlen : (0 : ℝ) ≤ (m : ℝ) - b.first := by
        rw [sub_nonneg]
        exact_mod_cast hmfirst
      have hgap := mul_nonneg hlen (sub_nonneg.mpr hlow)
      linarith
    · have hsplit := sum_Ico_consecutive s (by omega : b.first ≤ c.first) hm
      have hstart := hc.start_le m hm hmlast
      have hbtotal := hb.total_eq
      rw [hnext] at hbtotal
      have hrest : (0 : ℝ) ≤ (c.last : ℝ) + 1 - m := by
        rw [sub_nonneg]
        exact_mod_cast hmlast
      have hgap := mul_nonneg hrest (sub_nonneg.mpr hhigh)
      linarith

theorem level_eq_max (b : Block ℝ) : b.level = max b.mean 0 := by
  simp [level]

end Block

/-- A sequence with the places of a block set to a level. -/
private noncomputable def withBlock (b : Block ℝ) (z : ℕ → ℝ) (k : ℕ) : ℝ :=
  if b.first ≤ k ∧ k ≤ b.last then b.level else z k

section WithBlock

variable {b : Block ℝ} {z : ℕ → ℝ}

private theorem withBlock_of_lt {k : ℕ} (hk : k < b.first) :
    withBlock b z k = z k := by
  rw [withBlock, if_neg (by omega)]

private theorem withBlock_of_mem {k : ℕ} (hfirst : b.first ≤ k)
    (hlast : k ≤ b.last) : withBlock b z k = b.level := by
  rw [withBlock, if_pos ⟨hfirst, hlast⟩]

private theorem withBlock_of_gt {k : ℕ} (hk : b.last < k) :
    withBlock b z k = z k := by
  rw [withBlock, if_neg (by omega)]

private theorem sum_withBlock_of_le {m : ℕ} (hm : m ≤ b.first) :
    ∑ k ∈ range m, withBlock b z k = ∑ k ∈ range m, z k := by
  apply sum_congr rfl
  intro k hk
  exact withBlock_of_lt ((mem_range.mp hk).trans_le hm)

private theorem sum_withBlock {m : ℕ} (hfirst : b.first ≤ m)
    (hlast : m ≤ b.last + 1) :
    ∑ k ∈ range m, withBlock b z k =
      ∑ k ∈ range b.first, z k + ((m : ℝ) - b.first) * b.level := by
  have hblock : ∑ k ∈ Ico b.first m, withBlock b z k =
      ((m : ℝ) - b.first) * b.level := by
    rw [sum_congr rfl fun k hk => withBlock_of_mem (mem_Ico.mp hk).1
      (by have := (mem_Ico.mp hk).2; omega)]
    rw [sum_const, Nat.card_Ico, nsmul_eq_mul, Nat.cast_sub hfirst]
  rw [← sum_range_add_sum_Ico _ hfirst, sum_withBlock_of_le le_rfl, hblock]

end WithBlock

section Extension

variable {s z : ℕ → ℝ} {b : Block ℝ} (hz : IsProjection b.first s z)
  (hlevel : ∀ k < b.first, b.level ≤ z k)

include hz hlevel

private theorem antitone_withBlock : Antitone (withBlock b z) := by
  have hnonneg : 0 ≤ b.level := by
    simp [Block.level_eq_max]
  intro j k hjk
  rcases lt_or_ge b.last k with hk | hk
  · rw [withBlock_of_gt hk]
    rcases lt_or_ge j b.first with hj | hj
    · rw [withBlock_of_lt hj]
      exact hz.antitone hjk
    · rw [hz.zero_of_le k (by omega)]
      rcases le_or_gt j b.last with hj' | hj'
      · rw [withBlock_of_mem hj hj']
        exact hnonneg
      · rw [withBlock_of_gt hj', hz.zero_of_le j hj]
  · rcases lt_or_ge j b.first with hj | hj
    · rw [withBlock_of_lt hj]
      rcases lt_or_ge k b.first with hk' | hk'
      · rw [withBlock_of_lt hk']
        exact hz.antitone hjk
      · rw [withBlock_of_mem hk' hk]
        exact hlevel j hj
    · rw [withBlock_of_mem hj (by omega), withBlock_of_mem (by omega) hk]

/-- In front of a block at a positive level the sums agree. -/
private theorem sum_front_eq (hpositive : 0 < b.level) :
    ∑ k ∈ range b.first, s k = ∑ k ∈ range b.first, z k := by
  rcases Nat.eq_zero_or_pos b.first with hzero | hpos
  · simp [hzero]
  · obtain ⟨p, hp⟩ := Nat.exists_eq_add_of_lt hpos
    rw [show b.first = p + 1 by omega]
    apply hz.prefix_eq_of_drop p (by omega)
    rw [hz.zero_of_le (p + 1) (by omega)]
    exact hpositive.trans_le (hlevel p (by omega))

/-- Up to the end of a block at a positive level the sums agree too: the level
is then the mean of the block. -/
private theorem sum_withBlock_eq (hb : b.Pooled s) (hplaces : b.first ≤ b.last)
    (hpositive : 0 < b.level) :
    ∑ k ∈ range (b.last + 1), s k = ∑ k ∈ range (b.last + 1), withBlock b z k := by
  have hmean : b.level = b.mean := by
    rw [Block.level_eq_max] at hpositive ⊢
    rcases max_choice b.mean 0 with hmax | hmax
    · exact hmax
    · rw [hmax] at hpositive
      exact absurd hpositive (lt_irrefl _)
  rw [sum_withBlock (by omega) le_rfl,
    ← sum_range_add_sum_Ico s (by omega : b.first ≤ b.last + 1),
    sum_front_eq hz hlevel hpositive, ← hb.total_eq, ← hb.mean_eq, hmean]
  push_cast
  ring

/-- A projection goes on with another block at a level that is not larger. -/
private theorem isProjection_withBlock (hb : b.Pooled s) (hplaces : b.first ≤ b.last) :
    IsProjection (b.last + 1) s (withBlock b z) := by
  have hnonneg : 0 ≤ b.level := by
    simp [Block.level_eq_max]
  have hmean : b.mean ≤ b.level := by
    simp [Block.level_eq_max]
  refine ⟨antitone_withBlock hz hlevel, ?_, ?_, ?_⟩
  · intro k hk
    rw [withBlock_of_gt (by omega)]
    exact hz.zero_of_le k (by omega)
  · intro m hm
    rcases le_total m b.first with hfirst | hfirst
    · rw [sum_withBlock_of_le hfirst]
      exact hz.prefix_le m hfirst
    · have hlen : (0 : ℝ) ≤ (m : ℝ) - b.first := by
        rw [sub_nonneg]
        exact_mod_cast hfirst
      rw [sum_withBlock hfirst hm, ← sum_range_add_sum_Ico s hfirst]
      exact add_le_add (hz.prefix_le b.first le_rfl)
        ((hb.start_le m hfirst hm).trans (mul_le_mul_of_nonneg_left hmean hlen))
  · intro m hm hdrop
    rcases lt_trichotomy (m + 1) b.first with h | h | h
    · rw [withBlock_of_lt h, withBlock_of_lt (by omega)] at hdrop
      rw [sum_withBlock_of_le h.le]
      exact hz.prefix_eq_of_drop m (by omega) hdrop
    · rw [withBlock_of_mem h.ge (by omega), withBlock_of_lt (by omega)] at hdrop
      rw [sum_withBlock_of_le h.le]
      apply hz.prefix_eq_of_drop m (by omega)
      rw [hz.zero_of_le (m + 1) h.ge]
      exact hnonneg.trans_lt hdrop
    · rw [withBlock_of_mem (k := m) (by omega) (by omega)] at hdrop
      rcases lt_or_ge m b.last with hlast | hlast
      · rw [withBlock_of_mem (by omega) (by omega)] at hdrop
        exact absurd hdrop (lt_irrefl _)
      · obtain rfl : m = b.last := by omega
        rw [withBlock_of_gt (by omega), hz.zero_of_le _ (by omega)] at hdrop
        exact sum_withBlock_eq hz hlevel hb hplaces hdrop

end Extension

/-- The levels of a stack whose means fall are a projection. -/
theorem isProjection_levelAt {s : ℕ → ℝ} {stack : List (Block ℝ)} {stop : ℕ}
    (htiles : Block.Tiles stack stop) (hfalls : Block.Falls stack)
    (hpooled : ∀ b ∈ stack, b.Pooled s) :
    IsProjection stop s (Block.levelAt 0 stack) := by
  induction stack generalizing stop with
  | nil =>
      obtain rfl : stop = 0 := htiles
      refine ⟨antitone_const, fun _ _ => rfl, ?_, ?_⟩
      · intro m hm
        simp [Nat.le_zero.mp hm]
      · intro m hm
        exact absurd hm (Nat.not_lt_zero m)
  | cons b rest ih =>
      obtain ⟨rfl, hplaces, hrest⟩ := htiles
      have hprev := ih hrest hfalls.tail fun c hc => hpooled c (by simp [hc])
      refine isProjection_withBlock hprev ?_ (hpooled b (by simp)) hplaces
      intro k hk
      cases rest with
      | nil =>
          obtain h : b.first = 0 := hrest
          omega
      | cons top rest =>
          obtain ⟨hnext, htop, _⟩ := hrest
          have hmean := (List.isChain_cons_cons.mp hfalls).1
          calc
            b.level ≤ top.level := by
                  rw [Block.level_eq_max, Block.level_eq_max]
                  exact max_le_max (not_le.mp hmean).le le_rfl
            _ = Block.levelAt 0 (top :: rest) top.last := by
                  rw [Block.levelAt, if_pos ⟨htop, le_rfl⟩]
            _ ≤ Block.levelAt 0 (top :: rest) k :=
                  hprev.antitone (by omega)

theorem Block.ofSequence_pooled {n : ℕ} (s : Vec ℝ n) :
    Tiles (ofSequence s) n ∧ Falls (ofSequence s) ∧
      ∀ b ∈ ofSequence s, b.Pooled (Falling.extend s.get) :=
  ofSequence_invariant s (pooled_single s) fun _ _ => pooled_merge

/-- Pooling projects onto the falling sequences that are not negative. -/
theorem project_isProjection {n : ℕ} (s : Vec ℝ n) :
    IsProjection n (Falling.extend s.get) (Falling.extend (project s).get) := by
  obtain ⟨htiles, hfalls, hpooled⟩ := Block.ofSequence_pooled s
  have hentries : Falling.extend (project s).get =
      Block.levelAt 0 (Block.ofSequence s) := by
    funext k
    by_cases hk : k < n
    · rw [Falling.extend, dif_pos hk]
      exact project_get s ⟨k, hk⟩
    · rw [Falling.extend_of_le _ (not_lt.mp hk),
        Block.levelAt_of_le 0 htiles (not_lt.mp hk)]
  rw [hentries]
  exact isProjection_levelAt htiles hfalls hpooled

namespace IsProjection

variable {n : ℕ} {s z : ℕ → ℝ} (hz : IsProjection n s z)

include hz

theorem nonneg (k : ℕ) : 0 ≤ z k := by
  rw [← hz.zero_of_le (max k n) (le_max_right k n)]
  exact hz.antitone (le_max_left k n)

/-- The input leaves its projection at a right angle. -/
theorem sum_sub_mul_eq_zero : ∑ k ∈ range n, (s k - z k) * z k = 0 := by
  have hparts : ∀ m ≤ n,
      ∑ k ∈ range m, (s k - z k) * z k = z m * ∑ k ∈ range m, (s k - z k) := by
    intro m hm
    induction m with
    | zero => simp
    | succ m ih =>
        rw [sum_range_succ, ih (by omega)]
        rcases (hz.antitone (Nat.le_succ m)).eq_or_lt with heq | hdrop
        · rw [sum_range_succ, heq]
          ring
        · have hexact := hz.prefix_eq_of_drop m (by omega) hdrop
          have hzero : ∑ k ∈ range (m + 1), (s k - z k) = 0 := by
            rw [sum_sub_distrib, hexact, sub_self]
          rw [hzero, mul_zero]
          rw [sum_range_succ] at hzero
          linear_combination z m * hzero
  rw [hparts n le_rfl, hz.zero_of_le n le_rfl, zero_mul]

/-- The level does not drop where the input does not: at a drop the sums agree, so the
entry in front of it is at least its level and the one behind it at most. -/
theorem level_succ_eq {k : ℕ} (hk : k + 1 < n) (hs : s k ≤ s (k + 1)) :
    z (k + 1) = z k := by
  apply (hz.antitone (Nat.le_succ k)).eq_of_not_lt
  intro hdrop
  have hsum := hz.prefix_eq_of_drop k (by omega) hdrop
  have hfront := hz.prefix_le k (by omega)
  have hback := hz.prefix_le (k + 2) (by omega)
  rw [sum_range_succ, sum_range_succ] at hsum
  rw [sum_range_succ, sum_range_succ, sum_range_succ, sum_range_succ] at hback
  linarith

/-- A stretch on which the input does not drop is put on one level. -/
theorem level_eq_of_monotoneOn {j k : ℕ} (hjk : j ≤ k) (hk : k < n)
    (hs : MonotoneOn s (Set.Icc j k)) : z k = z j := by
  induction k, hjk using Nat.le_induction with
  | base => rfl
  | succ k hjk ih =>
      have hstep : s k ≤ s (k + 1) := hs ⟨hjk, by omega⟩ ⟨by omega, le_rfl⟩ (by omega)
      rw [hz.level_succ_eq hk hstep]
      exact ih (by omega) (hs.mono (Set.Icc_subset_Icc_right (by omega)))

/-- Every run of equal entries has a start in front of which the sums agree. -/
theorem exists_run_start {k : ℕ} (hk : k < n) :
    ∃ p ≤ k, z p = z k ∧ ∑ j ∈ range p, s j = ∑ j ∈ range p, z j := by
  induction k with
  | zero => exact ⟨0, le_rfl, rfl, by simp⟩
  | succ k ih =>
      rcases (hz.antitone (Nat.le_succ k)).eq_or_lt with heq | hdrop
      · obtain ⟨p, hp, hlevel, hsum⟩ := ih (by omega)
        exact ⟨p, by omega, hlevel.trans heq.symm, hsum⟩
      · exact ⟨k + 1, le_rfl, rfl, hz.prefix_eq_of_drop k (by omega) hdrop⟩

/-- Every run of equal positive entries has an end up to which the sums agree. -/
theorem exists_run_stop {k : ℕ} (hk : k < n) (hpos : 0 < z k) :
    ∃ q, k < q ∧ q ≤ n ∧ (∀ j, k ≤ j → j < q → z j = z k) ∧
      ∑ j ∈ range q, s j = ∑ j ∈ range q, z j := by
  induction hgap : n - k generalizing k with
  | zero => omega
  | succ gap ih =>
      rcases (hz.antitone (Nat.le_succ k)).eq_or_lt with heq | hdrop
      · have hnext : k + 1 < n := by
          by_contra hout
          have hzero := hz.zero_of_le (k + 1) (by omega)
          exact hpos.ne' (heq.symm.trans hzero)
        obtain ⟨q, hq, hqn, hrun, hsum⟩ :=
          ih hnext (hpos.trans_eq heq.symm) (by omega)
        refine ⟨q, by omega, hqn, ?_, hsum⟩
        intro j hkj hjq
        rcases hkj.eq_or_lt with rfl | hlt
        · rfl
        · exact (hrun j hlt hjq).trans heq
      · refine ⟨k + 1, by omega, by omega, ?_,
          hz.prefix_eq_of_drop k hk hdrop⟩
        intro j hkj hjq
        rw [show j = k by omega]

/-- Taking non-negative amounts off a falling sequence before projecting it
makes no entry larger. -/
theorem le_of_sub {a amount : ℕ → ℝ} (ha : Antitone a) (hnonneg : ∀ k, 0 ≤ a k)
    (hamount : ∀ k, 0 ≤ amount k) (hs : ∀ k < n, s k = a k - amount k) (k : ℕ) :
    z k ≤ a k := by
  rcases (hz.nonneg k).eq_or_lt with hzero | hpos
  · exact hzero ▸ hnonneg k
  · have hk : k < n := by
      by_contra hout
      exact hpos.ne' (hz.zero_of_le k (not_lt.mp hout))
    obtain ⟨q, hkq, hqn, hrun, hsum⟩ := hz.exists_run_stop hk hpos
    have hfront := hz.prefix_le k hk.le
    rw [← sum_range_add_sum_Ico s hkq.le, ← sum_range_add_sum_Ico z hkq.le] at hsum
    have hlevel : ∑ j ∈ Ico k q, z j = (q - k : ℕ) • z k := by
      rw [sum_congr rfl fun j hj => hrun j (mem_Ico.mp hj).1 (mem_Ico.mp hj).2,
        sum_const, Nat.card_Ico]
    have hbound : ∑ j ∈ Ico k q, s j ≤ (q - k : ℕ) • a k := by
      rw [← Nat.card_Ico]
      apply sum_le_card_nsmul
      intro j hj
      obtain ⟨hkj, hjq⟩ := mem_Ico.mp hj
      rw [hs j (hjq.trans_le hqn)]
      linarith [ha hkj, hamount j]
    have hcount : (0 : ℝ) < ((q - k : ℕ) : ℝ) := by
      exact_mod_cast (by omega : 0 < q - k)
    rw [nsmul_eq_mul] at hlevel hbound
    exact le_of_mul_le_mul_left (by linarith) hcount

/-- What projecting takes off within a run: so many entries lose no more than
the thresholds at the start of the run add up to. -/
private theorem sum_run_le {a threshold : ℕ → ℝ} (ha : Antitone a)
    (hs : ∀ k < n, s k = a k - threshold k) {p k : ℕ} (hk : k < n) (hlevel : z p = z k)
    (hsum : ∑ j ∈ range p, s j = ∑ j ∈ range p, z j) {run : Finset ℕ}
    (hrun : run ⊆ Ico p (k + 1)) (hle : p + run.card ≤ k + 1) :
    ∑ j ∈ run, (a j - z j) ≤ ∑ j ∈ Ico p (p + run.card), threshold j := by
  have hconst : ∀ j, p ≤ j → j ≤ k → z j = z k := by
    intro j hpj hjk
    exact le_antisymm (hlevel ▸ hz.antitone hpj) (hz.antitone hjk)
  have hfalls : AntitoneOn (fun j => a j - z j) (Set.Ico p (k + 1)) := by
    intro i hi j hj hij
    have hiz := hconst i hi.1 (Nat.lt_succ_iff.mp hi.2)
    have hjz := hconst j hj.1 (Nat.lt_succ_iff.mp hj.2)
    change a j - z j ≤ a i - z i
    linarith [ha hij]
  have hprefix := hz.prefix_le (p + run.card) (by omega)
  rw [← sum_range_add_sum_Ico s (Nat.le_add_right p run.card),
    ← sum_range_add_sum_Ico z (Nat.le_add_right p run.card), hsum] at hprefix
  have hentries : ∑ j ∈ Ico p (p + run.card), s j =
      ∑ j ∈ Ico p (p + run.card), (a j - threshold j) := by
    apply sum_congr rfl
    intro j hj
    exact hs j (by have := (mem_Ico.mp hj).2; omega)
  rw [hentries, sum_sub_distrib] at hprefix
  calc
    ∑ j ∈ run, (a j - z j) ≤ ∑ j ∈ Ico p (p + run.card), (a j - z j) :=
          Falling.sum_le_sum_first hfalls hrun
    _ ≤ ∑ j ∈ Ico p (p + run.card), threshold j := by
          rw [sum_sub_distrib]
          linarith

/-- What projecting takes off a falling sequence, entry by entry, is bounded
by the thresholds: so many entries, wherever they stand, lose no more than the
sum of as many thresholds from the first one on. -/
theorem sum_chosen_le {a threshold : ℕ → ℝ} (ha : Antitone a)
    (hthreshold : Antitone threshold) (hs : ∀ k < n, s k = a k - threshold k)
    (chosen : Finset ℕ) (hchosen : chosen ⊆ range n) :
    ∑ k ∈ chosen, (a k - z k) ≤ ∑ k ∈ range chosen.card, threshold k := by
  induction chosen using Finset.strongInduction with
  | H chosen ih =>
      rcases chosen.eq_empty_or_nonempty with rfl | hnonempty
      · simp
      -- The last run that the choice meets is split off.
      set k := chosen.max' hnonempty with hkdef
      have hkmem : k ∈ chosen := chosen.max'_mem hnonempty
      have hkn : k < n := mem_range.mp (hchosen hkmem)
      obtain ⟨p, hpk, hlevel, hsum⟩ := hz.exists_run_start hkn
      set front := chosen.filter (· < p) with hfront
      set run := chosen.filter (¬ · < p) with hrun
      have hruncard : front.card + run.card = chosen.card :=
        card_filter_add_card_filter_not (s := chosen) (· < p)
      have hfrontsub : front ⊂ chosen := by
        refine filter_ssubset.mpr ⟨k, hkmem, by omega⟩
      have hfrontle : front.card ≤ p := by
        have hsub : front ⊆ range p := by
          intro j hj
          exact mem_range.mpr (mem_filter.mp hj).2
        simpa using card_le_card hsub
      have hrunsub : run ⊆ Ico p (k + 1) := by
        intro j hj
        obtain ⟨hjmem, hjp⟩ := mem_filter.mp hj
        have hjk := chosen.le_max' j hjmem
        exact mem_Ico.mpr ⟨not_lt.mp hjp, by omega⟩
      have hrunle : p + run.card ≤ k + 1 := by
        have hcard := card_le_card hrunsub
        rw [Nat.card_Ico] at hcard
        omega
      have hshift : ∑ j ∈ Ico p (p + run.card), threshold j ≤
          ∑ j ∈ Ico front.card (front.card + run.card), threshold j := by
        rw [sum_Ico_eq_sum_range, sum_Ico_eq_sum_range]
        simp only [Nat.add_sub_cancel_left]
        exact sum_le_sum fun j _ => hthreshold (by omega)
      have hrunbound := hz.sum_run_le ha hs hkn hlevel hsum hrunsub hrunle
      calc
        ∑ j ∈ chosen, (a j - z j) =
            ∑ j ∈ front, (a j - z j) + ∑ j ∈ run, (a j - z j) :=
              (sum_filter_add_sum_filter_not chosen (· < p) _).symm
        _ ≤ ∑ j ∈ range front.card, threshold j +
            ∑ j ∈ Ico front.card (front.card + run.card), threshold j :=
              add_le_add (ih front hfrontsub (hfrontsub.subset.trans hchosen))
                (hrunbound.trans hshift)
        _ = ∑ j ∈ range chosen.card, threshold j := by
              rw [sum_range_add_sum_Ico _ (Nat.le_add_right _ _), hruncard]

end IsProjection

end SparseWeights
