import Mathlib.Tactic
import SparseWeights.Decimal.Rounded

/-!
Digits of whole numbers. A number is determined by its digits, with or without
zeros in front; without them the first digit is a zero only if it is the only
one.
-/

namespace SparseWeights.Decimal

theorem natText_injective : Function.Injective natText := by
  intro m n h
  have hdigits := congrArg (Nat.ofDigitChars 10 · 0) (String.ofList_injective h)
  simpa [Nat.ofDigitChars_ten_toDigits] using hdigits

theorem isDigit_of_mem {n : ℕ} {c : Char} (h : c ∈ Nat.toDigits 10 n) : c.isDigit = true :=
  Nat.isDigit_of_mem_toDigits (by decide) le_rfl h

theorem head?_toDigits_ne {n : ℕ} (hn : 0 < n) : (Nat.toDigits 10 n).head? ≠ some '0' := by
  induction n using Nat.strong_induction_on with
  | _ n ih =>
      rcases lt_or_ge n 10 with hsmall | hlarge
      · rw [Nat.toDigits_of_lt_base hsmall]
        interval_cases n <;> decide
      · have hrest : 0 < n / 10 := by omega
        rw [Nat.toDigits_of_base_le (by decide) hlarge,
          List.head?_append_of_ne_nil _ Nat.toDigits_ne_nil]
        exact ih (n / 10) (by omega) hrest

theorem isDigit_of_mem_zeroPadded {width n : ℕ} {c : Char} (h : c ∈ zeroPadded width n) :
    c.isDigit = true := by
  rcases List.mem_append.mp h with hzero | hdigit
  · rw [List.eq_of_mem_replicate hzero]
    rfl
  · exact isDigit_of_mem hdigit

theorem length_zeroPadded (width n : ℕ) :
    (zeroPadded width n).length = max width (Nat.toDigits 10 n).length := by
  simp only [zeroPadded, List.length_append, List.length_replicate]
  omega

/-- Zeros in front do not count. -/
theorem ofDigitChars_zeroPadded (width n : ℕ) :
    Nat.ofDigitChars 10 (zeroPadded width n) 0 = n := by
  have hzeros : ∀ count : ℕ, Nat.ofDigitChars 10 (List.replicate count '0') 0 = 0 := by
    intro count
    induction count with
    | zero => rfl
    | succ count ih =>
        rw [List.replicate_succ, Nat.ofDigitChars_cons]
        exact ih
  simp only [zeroPadded]
  rw [Nat.ofDigitChars_append, hzeros, Nat.ofDigitChars_ten_toDigits]

end SparseWeights.Decimal
