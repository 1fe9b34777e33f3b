import SparseWeights.Penalty.Spec
import SparseWeights.Proofs.Penalty.Ranks

/-!
The penalty as a norm and the ball of its dual norm. Both kinds of penalty
weight the ranked magnitudes, one of them with the same factor at every rank.
The ball is described without any sorting: no choice of places may hold more
than as many factors from the first one on. The test that the code makes on the
running sums of the sorted magnitudes decides membership in this ball, and a
member paired with any weights gives no more than their penalty.
-/

namespace SparseWeights

open Finset

variable {n : ℕ}

namespace Penalty

/-- The factor that a rank counts with. -/
noncomputable def factor : Penalty ℝ n → ℕ → ℝ
  | l1 lam, _ => lam
  | sortedL1 lam, k => Falling.extend lam.get k

/-- What the checks on factors ensure: they fall and are not negative. -/
structure Falls (p : Penalty ℝ n) : Prop where
  antitone : Antitone p.factor
  nonneg : ∀ k, 0 ≤ p.factor k

/-- The ball of the dual norm. -/
def InBall (p : Penalty ℝ n) (alpha : Fin n → ℝ) : Prop :=
  ∀ chosen : Finset (Fin n),
    ∑ i ∈ chosen, |alpha i| ≤ ∑ k ∈ range chosen.card, p.factor k

/-- The penalties that the checks on kind, factors and number of weights let
through. -/
def Accepted (p : Penalty ℝ n) : Prop :=
  ∃ (kind : PenaltyKind) (lam : List ℝ) (dimension : Option Int)
    (spec : PenaltySpec ℝ),
    PenaltySpec.make kind lam dimension = .ok spec ∧ spec.fit n = .ok p

theorem ascends_eq_false_iff (xs : List ℝ) :
    PenaltySpec.ascends xs = false ↔ xs.Pairwise (· ≥ ·) := by
  rw [← List.isChain_iff_pairwise]
  induction xs with
  | nil => simp [PenaltySpec.ascends]
  | cons x rest ih =>
      cases rest with
      | nil => simp [PenaltySpec.ascends]
      | cons y rest =>
          rw [List.isChain_cons_cons, ← ih]
          simp [PenaltySpec.ascends]

theorem sortedL1_falls {lam : Vec ℝ n} (hfalls : Antitone lam.get)
    (hnonneg : ∀ i, 0 ≤ lam.get i) : (sortedL1 lam).Falls :=
  ⟨Falling.extend_antitone _ hfalls hnonneg, Falling.extend_nonneg _ hnonneg⟩

private theorem falls_of_factors {lam : List ℝ} (hlength : lam.length = n)
    (hfalling : lam.Pairwise (· ≥ ·)) (hnonneg : ∀ x ∈ lam, 0 ≤ x) :
    (sortedL1 (⟨lam.toArray, by simp [hlength]⟩ : Vec ℝ n)).Falls := by
  have hentry (k : Fin n) : (⟨lam.toArray, by simp [hlength]⟩ : Vec ℝ n).get k =
      lam[k.val] := by
    simp [Vec.get_eq_getElem]
  apply sortedL1_falls
  · intro j k hjk
    rw [hentry, hentry]
    rcases hjk.eq_or_lt with rfl | hlt
    · exact le_rfl
    · exact List.pairwise_iff_getElem.mp hfalling _ _ _ _ hlt
  · intro k
    rw [hentry]
    exact hnonneg _ (List.getElem_mem _)

/-- Factors that were let through fall and are not negative. -/
theorem Accepted.falls {p : Penalty ℝ n} (hp : p.Accepted) : p.Falls := by
  obtain ⟨kind, lam, dimension, spec, hmake, hfit⟩ := hp
  cases kind with
  | l1 =>
      simp only [PenaltySpec.make] at hmake
      unfold PenaltySpec.ofFactor at hmake
      split at hmake
      · rename_i x
        split at hmake
        · rename_i hx
          obtain rfl := Except.ok.inj hmake
          obtain rfl := Except.ok.inj hfit
          have hnonneg : 0 ≤ x := by simpa using hx
          exact ⟨antitone_const, fun _ => hnonneg⟩
        · cases hmake
      · cases hmake
  | sortedL1 =>
      simp only [PenaltySpec.make, PenaltySpec.ofFactors] at hmake
      split_ifs at hmake with hcount hempty hfinite hnegative hascends
      obtain rfl := Except.ok.inj hmake
      simp only [PenaltySpec.fit] at hfit
      split at hfit
      · rename_i hlength
        obtain rfl := Except.ok.inj hfit
        refine falls_of_factors hlength ((ascends_eq_false_iff lam).mp
          (Bool.not_eq_true _ ▸ hascends)) ?_
        intro x hx
        by_contra hneg
        exact hnegative (List.any_eq_true.mpr
          ⟨x, hx, decide_eq_true (not_le.mp hneg)⟩)
      · cases hfit

/-- Factors that fall and are not negative are let through. -/
theorem Falls.accepted {p : Penalty ℝ n} (hn : 0 < n) (hp : p.Falls) : p.Accepted := by
  cases p with
  | l1 lam =>
      have hlam : 0 ≤ lam := hp.nonneg 0
      refine ⟨.l1, [lam], none, .l1 lam, ?_, rfl⟩
      simp [PenaltySpec.make, PenaltySpec.ofFactor, hlam]
  | sortedL1 lam =>
      have hentry (k : ℕ) (hk : k < n) : factor (sortedL1 lam) k = lam[k] := by
        simp [factor, Falling.extend, hk, Vec.get_eq_getElem]
      have hnonneg : ∀ x ∈ lam.toList, ¬ x < 0 := by
        intro x hx
        obtain ⟨k, hk, rfl⟩ := List.mem_iff_getElem.mp hx
        have hfactor := hp.nonneg k
        rw [hentry k (by simpa using hk)] at hfactor
        simpa using hfactor
      have hascends : PenaltySpec.ascends lam.toList = false := by
        rw [ascends_eq_false_iff, List.pairwise_iff_getElem]
        intro j k hj hk hjk
        have hfactor := hp.antitone hjk.le
        rw [hentry j (by simpa using hj), hentry k (by simpa using hk)] at hfactor
        simpa using hfactor
      refine ⟨.sortedL1, lam.toList, none, .sortedL1 lam.toList, ?_, ?_⟩
      · have hnegative : (lam.toList.any fun x => decide (x < 0)) = false := by
          rw [List.any_eq_false]
          intro x hx
          simpa using hnonneg x hx
        have hfinite : (lam.toList.any fun x => !Scalar.isFinite x) = false := by
          rw [List.any_eq_false]
          simp
        rw [PenaltySpec.make, PenaltySpec.ofFactors, hascends, hnegative, hfinite]
        simp [hn.ne']
      · obtain ⟨entries, rfl⟩ := lam
        simp [PenaltySpec.fit]

theorem value_eq_sum (p : Penalty ℝ n) (w : Vec ℝ n) :
    p.value w = ∑ k ∈ range n, p.factor k * Vec.ranked w k := by
  cases p with
  | l1 lam =>
      simp only [value, factor]
      rw [← mul_sum, Vec.sum_ranked, Vec.norm1_eq_sum]
  | sortedL1 lam =>
      obtain ⟨places, _, hplaces⟩ := Vec.exists_ranks w
      simp only [value, factor]
      rw [Vec.foldl_add_zero, Vec.descending_eq_ofFn hplaces,
        Vec.toList_eq_ofFn, Falling.sum_extend_mul,
        Vec.ranked_eq_extend hplaces]
      have hzip : List.zipWith (fun l x => l * x) (List.ofFn lam.get)
          (List.ofFn fun k => |w.get (places k)|) =
          List.ofFn fun k => lam.get k * |w.get (places k)| := by
        apply List.ext_getElem
        · simp
        · intro k hleft hright
          simp
      rw [hzip, List.sum_ofFn]
      simp

/-- Membership in the ball, decided on the running sums of the ranks. -/
theorem inBall_iff_ranked (p : Penalty ℝ n) (alpha : Vec ℝ n) :
    p.InBall alpha.get ↔
      ∀ m ≤ n, ∑ k ∈ range m, Vec.ranked alpha k ≤ ∑ k ∈ range m, p.factor k := by
  constructor
  · intro hball m hm
    obtain ⟨places, _, hplaces⟩ := Vec.exists_ranks alpha
    obtain ⟨chosen, rfl, hsum⟩ :=
      Vec.exists_chosen_first (fun i => |alpha.get i|) places hm
    rw [Vec.ranked_eq_extend hplaces, hsum]
    exact hball chosen
  · intro hranked chosen
    have hcard : chosen.card ≤ n := by
      simpa using card_le_univ chosen
    exact (Vec.sum_abs_le_sum_ranked alpha chosen).trans (hranked _ hcard)

private theorem forall_prefixSums_iff (xs : List ℝ) (start bound : ℝ) :
    (∀ x ∈ prefixSums start xs, x ≤ bound) ↔
      ∀ m < xs.length, start + ∑ k ∈ range (m + 1), xs.getD k 0 ≤ bound := by
  induction xs generalizing start with
  | nil => simp [prefixSums]
  | cons x rest ih =>
      rw [prefixSums, List.forall_mem_cons, ih]
      constructor
      · rintro ⟨hfirst, hrest⟩ m hm
        cases m with
        | zero => simpa using hfirst
        | succ m =>
            have hnext := hrest m (by simpa using hm)
            rw [sum_range_succ' _ (m + 1)]
            simp only [List.getD_cons_succ, List.getD_cons_zero]
            linarith
      · intro hall
        refine ⟨by simpa using hall 0 (by simp), ?_⟩
        intro m hm
        have hnext := hall (m + 1) (by simpa using hm)
        rw [sum_range_succ' _ (m + 1)] at hnext
        simp only [List.getD_cons_succ, List.getD_cons_zero] at hnext
        linarith

private theorem foldl_prefixSums_eq_zero_iff (xs : List ℝ) :
    (prefixSums 0 xs).foldl Scalar.maxNaN 0 = 0 ↔
      ∀ m ≤ xs.length, ∑ k ∈ range m, xs.getD k 0 ≤ 0 := by
  have hnonneg := ((Vec.foldl_max_le_iff (prefixSums 0 xs) 0 _).mp le_rfl).1
  rw [le_antisymm_iff, and_iff_left hnonneg, Vec.foldl_max_le_iff,
    forall_prefixSums_iff]
  simp only [le_refl, true_and, zero_add]
  constructor
  · intro hall m hm
    cases m with
    | zero => simp
    | succ m => exact hall m hm
  · intro hall m hm
    exact hall (m + 1) hm

/-- The dual test of the code is membership in the ball. -/
theorem dualInfeasibility_eq_zero_iff (p : Penalty ℝ n) (hp : p.Falls)
    (alpha : Vec ℝ n) :
    p.dualInfeasibility alpha = 0 ↔ p.InBall alpha.get := by
  cases p with
  | l1 lam =>
      have hlam : 0 ≤ lam := hp.nonneg 0
      simp only [dualInfeasibility, Scalar.larger_eq_max, max_eq_right_iff,
        sub_nonpos, Vec.maxAbs_le_iff, InBall, factor, sum_const, card_range,
        nsmul_eq_mul]
      constructor
      · rintro ⟨_, hentries⟩ chosen
        have hsum := sum_le_card_nsmul chosen (fun i => |alpha.get i|) lam
          fun i _ => hentries i
        rwa [nsmul_eq_mul] at hsum
      · intro hball
        refine ⟨hlam, ?_⟩
        intro i
        simpa using hball {i}
  | sortedL1 lam =>
      obtain ⟨places, _, hplaces⟩ := Vec.exists_ranks alpha
      have hzip : List.zipWith (fun a l => a - l) (Vec.descending alpha) lam.toList =
          List.ofFn fun k => |alpha.get (places k)| - lam.get k := by
        rw [Vec.descending_eq_ofFn hplaces, Vec.toList_eq_ofFn]
        apply List.ext_getElem
        · simp
        · intro k hleft hright
          simp
      have hentry (k : ℕ) :
          Falling.extend (fun k => |alpha.get (places k)| - lam.get k) k =
            Vec.ranked alpha k - Falling.extend lam.get k := by
        rw [Vec.ranked_eq_extend hplaces]
        unfold Falling.extend
        split <;> simp
      rw [inBall_iff_ranked, dualInfeasibility, hzip,
        foldl_prefixSums_eq_zero_iff]
      simp only [List.length_ofFn, Vec.ofFn_getD_zero, hentry, sum_sub_distrib,
        sub_nonpos, factor]

/-- A member of the dual ball paired with weights gives at most their penalty. -/
theorem dot_le_value (p : Penalty ℝ n) {alpha : Vec ℝ n}
    (halpha : p.InBall alpha.get) (w : Vec ℝ n) :
    Vec.dot alpha w ≤ p.value w := by
  obtain ⟨places, _, hplaces⟩ := Vec.exists_ranks w
  have hprefix : ∀ m ≤ n,
      ∑ k ∈ range m, Falling.extend (fun k => |alpha.get (places k)|) k ≤
        ∑ k ∈ range m, p.factor k := by
    intro m hm
    obtain ⟨chosen, rfl, hsum⟩ :=
      Vec.exists_chosen_first (fun i => |alpha.get i|) places hm
    rw [hsum]
    exact halpha chosen
  calc
    Vec.dot alpha w = ∑ i, alpha.get i * w.get i := Vec.dot_eq_dotProduct alpha w
    _ ≤ ∑ i, |alpha.get i| * |w.get i| := by
          apply sum_le_sum
          intro i _
          rw [← abs_mul]
          exact le_abs_self _
    _ = ∑ k, |alpha.get (places k)| * |w.get (places k)| :=
          (Equiv.sum_comp places fun i => |alpha.get i| * |w.get i|).symm
    _ = ∑ k ∈ range n, Falling.extend (fun k => |alpha.get (places k)|) k *
          Vec.ranked w k := by
          rw [Falling.sum_extend_mul, Vec.ranked_eq_extend hplaces]
          simp
    _ ≤ ∑ k ∈ range n, p.factor k * Vec.ranked w k :=
          Falling.sum_mul_le_sum_mul (Vec.ranked_antitone w)
            (Vec.ranked_nonneg w n) hprefix
    _ = p.value w := (value_eq_sum p w).symm

end Penalty

end SparseWeights
