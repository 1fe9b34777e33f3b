import Mathlib.Algebra.BigOperators.Intervals
import Mathlib.Algebra.Order.BigOperators.Group.Finset
import Mathlib.Data.Real.Basic
import Mathlib.Tactic

/-!
Sums of falling sequences. Among the choices of so many entries the first ones
have the largest sum, and weighting two sequences with a falling one keeps the
order of their sums of first entries. Both facts are about real sequences
indexed by the natural numbers; vectors come in as sequences that end in zeros.
-/

namespace SparseWeights.Falling

open Finset

/-- Finitely many numbers as a sequence that goes on with zeros. -/
def extend {n : ℕ} (f : Fin n → ℝ) (k : ℕ) : ℝ :=
  if h : k < n then f ⟨k, h⟩ else 0

section Extend

variable {n : ℕ} (f : Fin n → ℝ)

@[simp] theorem extend_val (i : Fin n) : extend f i.val = f i := by
  simp [extend]

theorem extend_of_le {k : ℕ} (hk : n ≤ k) : extend f k = 0 := by
  simp [extend, hk]

theorem extend_nonneg (hf : ∀ i, 0 ≤ f i) (k : ℕ) : 0 ≤ extend f k := by
  unfold extend
  split
  · exact hf _
  · exact le_rfl

theorem extend_antitone (hf : Antitone f) (hnonneg : ∀ i, 0 ≤ f i) :
    Antitone (extend f) := by
  intro j k hjk
  by_cases hk : k < n
  · simp only [extend, hk, hjk.trans_lt hk, dite_true]
    exact hf hjk
  · rw [extend_of_le f (not_lt.mp hk)]
    exact extend_nonneg f hnonneg j

theorem sum_extend_mul (g : ℕ → ℝ) :
    ∑ k ∈ range n, extend f k * g k = ∑ i : Fin n, f i * g i.val := by
  rw [← Fin.sum_univ_eq_sum_range (fun k => extend f k * g k) n]
  simp

end Extend

/-- Entries chosen from an interval on which a sequence falls sum to no more
than as many entries at its start. -/
theorem sum_le_sum_first {f : ℕ → ℝ} {p q : ℕ} {chosen : Finset ℕ}
    (hf : AntitoneOn f (Set.Ico p q)) (hchosen : chosen ⊆ Ico p q) :
    ∑ k ∈ chosen, f k ≤ ∑ k ∈ Ico p (p + chosen.card), f k := by
  set first := Ico p (p + chosen.card) with hfirst
  have hcard : chosen.card = first.card := by
    simp [hfirst]
  have hcount : (chosen \ first).card = (first \ chosen).card :=
    card_sdiff_comm hcard
  have hlate : ∀ k ∈ chosen \ first, p + chosen.card ≤ k ∧ k < q := by
    intro k hk
    have hmem := mem_Ico.mp (hchosen (mem_sdiff.mp hk).1)
    have hout := (mem_sdiff.mp hk).2
    simp only [hfirst, mem_Ico, not_and, not_lt] at hout
    exact ⟨hout hmem.1, hmem.2⟩
  have hrest : ∑ k ∈ chosen \ first, f k ≤ ∑ k ∈ first \ chosen, f k := by
    rcases (chosen \ first).eq_empty_or_nonempty with hempty | ⟨x, hx⟩
    · rw [hempty, card_empty] at hcount
      rw [hempty, card_eq_zero.mp hcount.symm]
    · have hcut : p + chosen.card ∈ Set.Ico p q :=
        ⟨by omega, (hlate x hx).1.trans_lt (hlate x hx).2⟩
      calc
        ∑ k ∈ chosen \ first, f k ≤ (chosen \ first).card • f (p + chosen.card) := by
              apply sum_le_card_nsmul
              intro k hk
              obtain ⟨hle, hlt⟩ := hlate k hk
              exact hf hcut ⟨by omega, hlt⟩ hle
        _ = (first \ chosen).card • f (p + chosen.card) := by rw [hcount]
        _ ≤ ∑ k ∈ first \ chosen, f k := by
              apply card_nsmul_le_sum
              intro k hk
              have hmem := mem_Ico.mp (mem_sdiff.mp hk).1
              exact hf ⟨hmem.1, hmem.2.trans hcut.2⟩ hcut hmem.2.le
  calc
    ∑ k ∈ chosen, f k = ∑ k ∈ chosen ∩ first, f k + ∑ k ∈ chosen \ first, f k :=
          (sum_inter_add_sum_sdiff chosen first f).symm
    _ ≤ ∑ k ∈ first ∩ chosen, f k + ∑ k ∈ first \ chosen, f k := by
          rw [inter_comm]
          exact add_le_add_right hrest _
    _ = ∑ k ∈ first, f k := sum_inter_add_sum_sdiff first chosen f

/-- Summation by parts: if no sum of first entries of `d` is negative, neither
is their sum weighted with a falling sequence that is not negative. -/
theorem mul_sum_le_sum_mul {d f : ℕ → ℝ} (hf : Antitone f) {n : ℕ}
    (hd : ∀ m ≤ n, 0 ≤ ∑ k ∈ range m, d k) :
    f n * ∑ k ∈ range n, d k ≤ ∑ k ∈ range n, d k * f k := by
  induction n with
  | zero => simp
  | succ n ih =>
      have hprev := ih fun m hm => hd m (by omega)
      calc
        f (n + 1) * ∑ k ∈ range (n + 1), d k ≤ f n * ∑ k ∈ range (n + 1), d k :=
              mul_le_mul_of_nonneg_right (hf (by omega)) (hd (n + 1) le_rfl)
        _ = f n * ∑ k ∈ range n, d k + d n * f n := by
              rw [sum_range_succ]
              ring
        _ ≤ ∑ k ∈ range (n + 1), d k * f k := by
              rw [sum_range_succ]
              linarith

/-- Sums of first entries in order stay in order under falling weights. -/
theorem sum_mul_le_sum_mul {g h f : ℕ → ℝ} (hf : Antitone f) {n : ℕ}
    (hn : 0 ≤ f n)
    (hgh : ∀ m ≤ n, ∑ k ∈ range m, g k ≤ ∑ k ∈ range m, h k) :
    ∑ k ∈ range n, g k * f k ≤ ∑ k ∈ range n, h k * f k := by
  have hd : ∀ m ≤ n, 0 ≤ ∑ k ∈ range m, (h k - g k) := by
    intro m hm
    rw [sum_sub_distrib]
    linarith [hgh m hm]
  have hparts := mul_sum_le_sum_mul hf hd
  have hnonneg := mul_nonneg hn (hd n le_rfl)
  simp only [sub_mul, sum_sub_distrib] at hparts
  rw [sum_sub_distrib] at hnonneg
  linarith

end SparseWeights.Falling
