import SparseWeights.Proofs.Binary.Special
import SparseWeights.Sequence.Basic

/-!
Even steps in doubles. Between finite bounds the steps start at the first bound. None of
them passes the last bound by so much that an entry falls below zero, provided that a step
is zero or is large enough to have all of its bits: then its rounding error, over all steps
together, is less than a step.
-/

namespace SparseWeights.Sequence

open Binary

/-- Whether two bounds differ by so little that a step between them, of which there are `n - 1`,
lacks some of the bits of a double. -/
def Underflows (first last : Float) (n : ℕ) : Prop :=
  number (last - first) ≠ 0 ∧ |number (last - first)| < (n - 1) * 2 ^ (-1022 : ℤ)

/-- The error of a step, over all steps but the last, is less than a step. -/
theorem width_le_mul_step {width step i m : ℚ} (hi : 0 ≤ i) (hlast : i + 1 ≤ m)
    (hm : m < 2 ^ 53) (hwidth : width ≤ 0) (herror : |step - width / m| ≤ |width / m| / 2 ^ 53) :
    width ≤ i * step := by
  have hpos : 0 < m := by linarith
  have hquotient : width / m ≤ 0 := div_nonpos_of_nonpos_of_nonneg hwidth hpos.le
  rw [abs_of_nonpos hquotient] at herror
  have hshare : i * (1 + 1 / 2 ^ 53) ≤ m := by linarith
  calc width = width / m * m := (div_mul_cancel₀ width hpos.ne').symm
    _ ≤ width / m * (i * (1 + 1 / 2 ^ 53)) := mul_le_mul_of_nonpos_left hshare hquotient
    _ = i * (width / m + width / m / 2 ^ 53) := by ring
    _ ≤ i * step := mul_le_mul_of_nonneg_left (by linarith [(abs_le.mp herror).1]) hi

section Bounds

variable {first last : Float} (hfirst : first.isFinite = true) (hlast : last.isFinite = true)
  (hnonneg : 0 ≤ last) (hle : last ≤ first)

include hfirst hlast hnonneg hle

theorem width_spec : (last - first).isFinite = true ∧ number (last - first) ≤ 0 ∧
    -number first ≤ number (last - first) := by
  rw [nonneg_iff hlast] at hnonneg
  rw [le_iff_number hlast hfirst] at hle
  have hneg := number_neg hfirst
  obtain ⟨hfinite, hlow, hhigh⟩ := (isRounded_sub hlast hfirst).between (isFinite_neg hfirst)
    isFinite_zero (by linarith) (by linarith [number_zero])
  exact ⟨hfinite, hhigh.trans number_zero.le, hneg.ge.trans hlow⟩

/-- No share of the width leads below zero. -/
theorem add_first_nonneg {x : Float} (hx : x.isFinite = true)
    (hlow : number (last - first) ≤ number x) : 0 ≤ x + first := by
  obtain ⟨_, _, hwidth⟩ := width_spec hfirst hlast hnonneg hle
  refine (isRounded_add hx hfirst).le isFinite_zero ?_
  rw [number_zero]
  linarith

/-- Neither does any product of the width with a number between zero and one. -/
theorem mul_width_spec {x : Float} (hx : x.isFinite = true) (hpos : 0 ≤ number x)
    (hone : number x ≤ 1) : (x * (last - first)).isFinite = true ∧
      number (last - first) ≤ number (x * (last - first)) := by
  obtain ⟨hwidth, hneg, _⟩ := width_spec hfirst hlast hnonneg hle
  have hlow : number (last - first) ≤ number x * number (last - first) := by nlinarith
  have hhigh : number x * number (last - first) ≤ number 0 := by
    rw [number_zero]
    exact mul_nonpos_of_nonneg_of_nonpos hpos hneg
  obtain ⟨hfinite, hge, _⟩ := (isRounded_mul hx hwidth).between hwidth isFinite_zero hlow hhigh
  exact ⟨hfinite, hge⟩

variable {n : ℕ} (hn : n - 1 < 2 ^ 53) (htwo : 2 ≤ n)

include hn htwo

theorem step_spec :
    ((last - first) / Float.ofNat (n - 1)).isFinite = true ∧
      number ((last - first) / Float.ofNat (n - 1)) ≤ 0 ∧
      (¬Underflows first last n → ∀ i : ℕ, i + 1 < n →
        number (last - first) ≤ i * number ((last - first) / Float.ofNat (n - 1))) := by
  obtain ⟨hwidth, hneg, _⟩ := width_spec hfirst hlast hnonneg hle
  obtain ⟨hcount, hnumber⟩ := number_ofNat hn
  have hcast : ((n - 1 : ℕ) : ℚ) = n - 1 := Nat.cast_pred (by omega)
  rw [hcast] at hnumber
  have hpos : (1 : ℚ) ≤ n - 1 := by
    rw [← hcast]
    exact_mod_cast Nat.le_sub_one_of_lt htwo
  have hrounded := isRounded_div hwidth hcount (by rw [hnumber]; linarith)
  rw [hnumber] at hrounded
  have hlow : number (last - first) ≤ number (last - first) / (n - 1) := by
    rw [le_div_iff₀ (by linarith)]
    nlinarith
  have hhigh : number (last - first) / (n - 1) ≤ number 0 := by
    rw [number_zero]
    exact div_nonpos_of_nonpos_of_nonneg hneg (by linarith)
  obtain ⟨hfinite, hlow', hstep⟩ := hrounded.between hwidth isFinite_zero hlow hhigh
  refine ⟨hfinite, hstep.trans number_zero.le, fun hnormal i hi => ?_⟩
  rcases hneg.eq_or_lt with hzero | hnegative
  · rw [hzero] at hlow' ⊢
    exact mul_nonneg (Nat.cast_nonneg i) hlow'
  have hlarge : 2 ^ (-1022 : ℤ) ≤ |number (last - first) / (n - 1 : ℚ)| := by
    rw [abs_div, abs_of_pos (zero_lt_one.trans_le hpos), le_div_iff₀ (by linarith), mul_comm]
    exact not_lt.mp fun hsmall => hnormal ⟨hnegative.ne, hsmall⟩
  refine width_le_mul_step (Nat.cast_nonneg i) ?_ ?_ hneg (hrounded.error_le hfinite hlarge)
  · rw [← hcast]
    exact_mod_cast Nat.le_sub_one_of_lt hi
  · rw [← hcast]
    exact_mod_cast hn

variable {i : ℕ} (hi : i + 1 < n)

include hi

/-- A share of the width. -/
theorem share_spec :
    (Float.ofNat i / Float.ofNat (n - 1) * (last - first)).isFinite = true ∧
      number (last - first) ≤ number (Float.ofNat i / Float.ofNat (n - 1) * (last - first)) ∧
      (i = 0 → number (Float.ofNat i / Float.ofNat (n - 1) * (last - first)) = 0) := by
  obtain ⟨hwidth, _, _⟩ := width_spec hfirst hlast hnonneg hle
  obtain ⟨hindex, hindexNumber⟩ := number_ofNat (n := i) (by omega)
  obtain ⟨hcount, hnumber⟩ := number_ofNat hn
  have hpos : (0 : ℚ) < (n - 1 : ℕ) := by exact_mod_cast Nat.sub_pos_of_lt htwo
  have hquotient := isRounded_div hindex hcount (by rw [hnumber]; exact hpos.ne')
  rw [hindexNumber, hnumber] at hquotient
  obtain ⟨hshare, hlow, hhigh⟩ := hquotient.between isFinite_zero (z := 1) rfl
    (by rw [number_zero]; positivity)
    (by rw [number_one, div_le_one hpos]; exact_mod_cast Nat.le_sub_one_of_lt (by omega))
  rw [number_zero] at hlow
  rw [number_one] at hhigh
  obtain ⟨hfinite, hge⟩ := mul_width_spec hfirst hlast hnonneg hle hshare hlow hhigh
  refine ⟨hfinite, hge, ?_⟩
  rintro rfl
  rw [Nat.cast_zero, zero_div] at hquotient
  have hproduct := isRounded_mul hshare hwidth
  rw [(hquotient.number_eq isFinite_zero number_zero).2, zero_mul] at hproduct
  exact (hproduct.number_eq isFinite_zero number_zero).2

/-- A multiple of a step. -/
theorem multiple_spec (hsafe : i = 0 ∨ ¬Underflows first last n) :
    (Float.ofNat i * ((last - first) / Float.ofNat (n - 1))).isFinite = true ∧
      number (last - first) ≤ number (Float.ofNat i * ((last - first) / Float.ofNat (n - 1))) ∧
      (i = 0 → number (Float.ofNat i * ((last - first) / Float.ofNat (n - 1))) = 0) := by
  obtain ⟨hwidth, hneg, _⟩ := width_spec hfirst hlast hnonneg hle
  obtain ⟨hindex, hindexNumber⟩ := number_ofNat (n := i) (by omega)
  obtain ⟨hstep, hstepNeg, hshare⟩ := step_spec hfirst hlast hnonneg hle hn htwo
  have hproduct := isRounded_mul hindex hstep
  rw [hindexNumber] at hproduct
  have hlow : number (last - first) ≤ i * number ((last - first) / Float.ofNat (n - 1)) := by
    rcases hsafe with rfl | hsafe
    · simpa using hneg
    · exact hshare hsafe i hi
  have hhigh : i * number ((last - first) / Float.ofNat (n - 1)) ≤ number 0 := by
    rw [number_zero]
    exact mul_nonpos_of_nonneg_of_nonpos (Nat.cast_nonneg i) hstepNeg
  obtain ⟨hfinite, hge, _⟩ := hproduct.between hwidth isFinite_zero hlow hhigh
  refine ⟨hfinite, hge, ?_⟩
  rintro rfl
  rw [Nat.cast_zero, zero_mul] at hproduct
  exact (hproduct.number_eq isFinite_zero number_zero).2

end Bounds

variable {first last : Float} {n i : ℕ}

/-- Apart from the last one of several, an entry is the first bound plus no more than the width. -/
theorem exists_evenStep_eq_add (hfirst : first.isFinite = true) (hlast : last.isFinite = true)
    (hnonneg : 0 ≤ last) (hle : last ≤ first) (hn : n - 1 < 2 ^ 53) (hi : i < n)
    (hinner : n = 1 ∨ i + 1 ≠ n) (hsafe : i = 0 ∨ ¬Underflows first last n) :
    ∃ x : Float, x.isFinite = true ∧ number (last - first) ≤ number x ∧
      (i = 0 → number x = 0) ∧ evenStep first last n i = x + first := by
  obtain ⟨hwidth, hneg, _⟩ := width_spec hfirst hlast hnonneg hle
  by_cases hone : n = 1
  · have hproduct := isRounded_mul isFinite_zero hwidth
    rw [number_zero, zero_mul] at hproduct
    obtain ⟨hfinite, hzero⟩ := hproduct.number_eq isFinite_zero number_zero
    exact ⟨0 * (last - first), hfinite, hneg.trans hzero.ge, fun _ => hzero, by
      simp [evenStep, hone]⟩
  have hnext : i + 1 ≠ n := hinner.resolve_left hone
  by_cases hsame : Scalar.same ((last - first) / Scalar.ofNat (n - 1)) 0
  · obtain ⟨hfinite, hlow, hzero⟩ :=
      share_spec hfirst hlast hnonneg hle hn (by omega) (i := i) (by omega)
    refine ⟨_, hfinite, hlow, hzero, ?_⟩
    simp only [evenStep, if_neg hone, if_neg hnext, if_pos hsame]
    rfl
  · obtain ⟨hfinite, hlow, hzero⟩ :=
      multiple_spec hfirst hlast hnonneg hle hn (by omega) (by omega) hsafe
    refine ⟨_, hfinite, hlow, hzero, ?_⟩
    simp only [evenStep, if_neg hone, if_neg hnext, if_neg hsame]
    rfl

/-- Unless the steps are too small, none of them leads below zero. -/
theorem evenStep_nonneg (hfirst : first.isFinite = true) (hlast : last.isFinite = true)
    (hnonneg : 0 ≤ last) (hle : last ≤ first) (hn : n - 1 < 2 ^ 53)
    (hsafe : ¬Underflows first last n) (hi : i < n) : 0 ≤ evenStep first last n i := by
  by_cases hend : n ≠ 1 ∧ i + 1 = n
  · simpa [evenStep, hend] using hnonneg
  · obtain ⟨x, hx, hlow, _, heq⟩ := exists_evenStep_eq_add hfirst hlast hnonneg hle hn hi
      (by omega) (.inr hsafe)
    rw [heq]
    exact add_first_nonneg hfirst hlast hnonneg hle hx hlow

theorem le_of_badBounds (hfirst : first.isFinite = true) (hlast : last.isFinite = true)
    (hguards : badBounds first last = false) : 0 ≤ last ∧ last ≤ first := by
  simp only [badBounds, Bool.or_eq_false_iff, decide_eq_false_iff_not] at hguards
  obtain ⟨⟨_, hnonneg⟩, hle⟩ := hguards
  exact ⟨(not_lt_iff hlast isFinite_zero).mp hnonneg, (not_lt_iff hfirst hlast).mp hle⟩

/-- The entries start with a finite one exactly if both bounds are finite. -/
theorem isFinite_evenStep_zero_iff (hpos : 0 < n) (hn : n - 1 < 2 ^ 53)
    (hguards : badBounds first last = false) :
    (evenStep first last n 0).isFinite = true ↔ first.isFinite = true ∧ last.isFinite = true := by
  constructor
  · intro h
    have hwidth : first.isFinite = true ∧ (last - first).isFinite = true := by
      rw [evenStep] at h
      split at h
      · obtain ⟨hproduct, hfirst⟩ := isFinite_of_add h
        exact ⟨hfirst, (isFinite_of_mul hproduct).2⟩
      next hone =>
        rw [if_neg (by omega)] at h
        split at h
        all_goals obtain ⟨hproduct, hfirst⟩ := isFinite_of_add h
        · exact ⟨hfirst, (isFinite_of_mul hproduct).2⟩
        · exact ⟨hfirst, isFinite_of_div (isFinite_of_mul hproduct).2⟩
    exact ⟨hwidth.1, (isFinite_of_sub hwidth.2).1⟩
  · rintro ⟨hfirst, hlast⟩
    obtain ⟨hnonneg, hle⟩ := le_of_badBounds hfirst hlast hguards
    obtain ⟨x, hx, _, hzero, heq⟩ := exists_evenStep_eq_add hfirst hlast hnonneg hle hn hpos
      (by omega) (.inl rfl)
    have hsum := isRounded_add hx hfirst
    rw [hzero rfl, zero_add] at hsum
    rw [heq]
    exact (hsum.number_eq hfirst rfl).1

end SparseWeights.Sequence
