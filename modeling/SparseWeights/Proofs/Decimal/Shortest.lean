import SparseWeights.Decimal.Shortest
import SparseWeights.Proofs.Decimal.Binary64

/-!
The shortest decimal of a double is read back as that double. It is taken from
the interval of the double as soon as a grid has a point in it. On the finest
grid that is tried there is always one, because eighteen digits are closer to
each other than doubles are.
-/

namespace SparseWeights.Decimal

open Binary64 (Canonical Covers)

/-- A decimal fraction as the quotient that is handed to the reader. -/
theorem mul_zpow_eq_div (digits : ℕ) (exponent : ℤ) :
    (digits : ℚ) * 10 ^ exponent =
      (digits * pow10 exponent.toNat : ℕ) / (pow10 (-exponent).toNat : ℕ) := by
  rw [zpow_eq_div, pow10_eq, pow10_eq]
  push_cast
  rw [mul_div_assoc]

theorem pow10_pos (n : ℕ) : 0 < pow10 n := Nat.pow_pos (by decide)

theorem div_le_mul_zpow_iff {num den digits : ℕ} (hden : 0 < den) (exponent : ℤ) :
    (num : ℚ) / den ≤ digits * 10 ^ exponent ↔
      num * pow10 (-exponent).toNat ≤ digits * pow10 exponent.toNat * den := by
  rw [mul_zpow_eq_div, div_le_div_iff₀ (by exact_mod_cast hden) (by exact_mod_cast pow10_pos _)]
  exact_mod_cast Iff.rfl

theorem mul_zpow_le_div_iff {num den digits : ℕ} (hden : 0 < den) (exponent : ℤ) :
    (digits : ℚ) * 10 ^ exponent ≤ num / den ↔
      digits * pow10 exponent.toNat * den ≤ num * pow10 (-exponent).toNat := by
  rw [mul_zpow_eq_div, div_le_div_iff₀ (by exact_mod_cast pow10_pos _) (by exact_mod_cast hden)]
  exact_mod_cast Iff.rfl

namespace Binary64

variable {b : Binary64}

theorem interval_den_pos (b : Binary64) : 0 < b.interval.den :=
  Nat.mul_pos (by decide) (Nat.pow_pos two_pos)

/-- Quarters of the last place as fractions over the denominator of the interval. -/
theorem quarters_div_den (b : Binary64) (n : ℕ) :
    ((n * pow2 b.exponent.toNat : ℕ) : ℚ) / b.interval.den = n / 4 * 2 ^ b.exponent := by
  have hden : b.interval.den = 4 * pow2 (-b.exponent).toNat := rfl
  rw [hden, zpow_eq_div, pow2_eq, pow2_eq]
  push_cast
  field_simp

theorem interval_low (hpos : 0 < b.mantissa) :
    (b.interval.low : ℚ) / b.interval.den =
      (b.mantissa - b.quartersBelow / 4) * 2 ^ b.exponent := by
  have hle := b.quartersBelow_le
  have hlow : b.interval.low = (4 * b.mantissa - b.quartersBelow) * pow2 b.exponent.toNat := rfl
  rw [hlow, quarters_div_den, Nat.cast_sub (by omega)]
  push_cast
  ring

theorem interval_high (b : Binary64) :
    (b.interval.high : ℚ) / b.interval.den = (b.mantissa + 1 / 2) * 2 ^ b.exponent := by
  have hhigh : b.interval.high = (4 * b.mantissa + 2) * pow2 b.exponent.toNat := rfl
  rw [hhigh, quarters_div_den]
  push_cast
  ring

theorem interval_value (b : Binary64) :
    (b.interval.value : ℚ) / b.interval.den = b.magnitude := by
  have hvalue : b.interval.value = 4 * b.mantissa * pow2 b.exponent.toNat := rfl
  rw [hvalue, quarters_div_den, magnitude]
  push_cast
  ring

/-- A decimal fraction in the interval of a double rounds to it. -/
theorem covers_of_holds (hpos : 0 < b.mantissa) {digits : ℕ} {exponent : ℤ}
    (h : b.interval.holds digits exponent = true) : b.Covers (digits * 10 ^ exponent) := by
  have hden := b.interval_den_pos
  rw [Interval.holds] at h
  split at h
  next hclosed =>
    rw [Bool.and_eq_true, decide_eq_true_iff, decide_eq_true_iff] at h
    have heven : b.mantissa % 2 = 0 := by simpa [interval] using hclosed
    refine ⟨?_, ?_, fun _ => heven⟩
    · rw [← interval_low hpos]
      exact (div_le_mul_zpow_iff hden exponent).mpr h.1
    · rw [← interval_high]
      exact (mul_zpow_le_div_iff hden exponent).mpr h.2
  next =>
    rw [Bool.and_eq_true, decide_eq_true_iff, decide_eq_true_iff] at h
    have hlow : (b.mantissa - b.quartersBelow / 4) * 2 ^ b.exponent <
        (digits : ℚ) * 10 ^ exponent := by
      rw [← interval_low hpos]
      exact lt_of_not_ge fun hle =>
        absurd ((mul_zpow_le_div_iff hden exponent).mp hle) (by omega)
    have hhigh : (digits : ℚ) * 10 ^ exponent < (b.mantissa + 1 / 2) * 2 ^ b.exponent := by
      rw [← interval_high]
      exact lt_of_not_ge fun hle =>
        absurd ((div_le_mul_zpow_iff hden exponent).mp hle) (by omega)
    refine ⟨hlow.le, hhigh.le, ?_⟩
    rintro (heq | heq)
    · exact absurd heq hlow.ne'
    · exact absurd heq hhigh.ne

/-- A fraction closer to a double than a quarter of its last place rounds to it. -/
theorem covers_of_abs_lt {q : ℚ} (h : |q - b.magnitude| < 1 / 4 * 2 ^ b.exponent) :
    b.Covers q := by
  obtain ⟨hlow, hhigh⟩ := abs_lt.mp h
  rw [magnitude] at hlow hhigh
  have hunit : (0 : ℚ) < 2 ^ b.exponent := by positivity
  have hquarters : (1 : ℚ) ≤ b.quartersBelow := by
    have : 1 ≤ b.quartersBelow := by
      rw [quartersBelow]
      split <;> decide
    exact_mod_cast this
  have hend : (b.mantissa - (b.quartersBelow : ℚ) / 4) * 2 ^ b.exponent < q := by nlinarith
  have hstart : q < (b.mantissa + 1 / 2) * 2 ^ b.exponent := by nlinarith
  refine ⟨hend.le, hstart.le, ?_⟩
  rintro (heq | heq)
  · exact absurd heq hend.ne'
  · exact absurd heq hstart.ne

end Binary64

theorem lt_pow_length (n : ℕ) : n < 10 ^ (Nat.toDigits 10 n).length :=
  (Nat.length_toDigits_le_iff (by decide) Nat.length_toDigits_pos).mp le_rfl

theorem pow_length_le {n : ℕ} (hn : 0 < n) : 10 ^ ((Nat.toDigits 10 n).length - 1) ≤ n := by
  rcases Nat.eq_zero_or_pos ((Nat.toDigits 10 n).length - 1) with hone | hmore
  · rw [hone]
    exact hn
  · by_contra! hlt
    have := (Nat.length_toDigits_le_iff (by decide) hmore).mpr hlt
    omega

/-- The leading digit of a fraction is the one of the largest power of ten up to it. -/
theorem leadingExponent_spec {num den : ℕ} (hnum : 0 < num) (hden : 0 < den) :
    (10 : ℚ) ^ leadingExponent num den ≤ num / den ∧
      (num : ℚ) / den < 10 ^ (leadingExponent num den + 1) := by
  have hten : 1 < 10 := by decide
  have hlength (n : ℕ) : (Nat.toDigits 10 n).length - 1 + 1 = (Nat.toDigits 10 n).length :=
    Nat.sub_add_cancel Nat.length_toDigits_pos
  have hhigh (n : ℕ) : n < 10 ^ ((Nat.toDigits 10 n).length - 1 + 1) := by
    rw [hlength]
    exact lt_pow_length n
  have hguess : (((Nat.toDigits 10 num).length - 1 : ℕ) : ℤ) -
      ((Nat.toDigits 10 den).length - 1 : ℕ) =
        (Nat.toDigits 10 num).length - (Nat.toDigits 10 den).length := by
    have := hlength num
    have := hlength den
    omega
  obtain ⟨hbelow, habove⟩ := zpow_sub_bounds hten (pow_length_le hnum) (hhigh num)
    (pow_length_le hden) (hhigh den)
  rw [hguess] at hbelow habove
  exact leading_spec hten hden hbelow habove (e := leadingExponent num den) rfl

theorem neighbour_holds {r : Interval} {exponent : ℤ} {digits : ℕ}
    (h : r.neighbour? exponent = some digits) : r.holds digits exponent = true := by
  simp only [Interval.neighbour?] at h
  split at h
  next hnearest =>
    cases h
    exact hnearest
  next =>
    split at h
    next hbelow =>
      cases h
      exact hbelow
    next =>
      split at h
      next habove =>
        cases h
        exact habove
      next => cases h

theorem dropZeros_value (fuel digits : ℕ) (exponent : ℤ) :
    ((dropZeros fuel digits exponent).1 : ℚ) * 10 ^ (dropZeros fuel digits exponent).2 =
      digits * 10 ^ exponent := by
  induction fuel generalizing digits exponent with
  | zero => rfl
  | succ fuel ih =>
      rw [dropZeros]
      split
      next h =>
        have hten : (digits : ℚ) = (digits / 10 : ℕ) * 10 := by
          have : digits = digits / 10 * 10 := by omega
          exact_mod_cast this
        rw [ih, hten, zpow_add_one₀ (by norm_num)]
        ring
      next => rfl

theorem dropZeros_le (fuel digits : ℕ) (exponent : ℤ) :
    (dropZeros fuel digits exponent).1 ≤ digits := by
  induction fuel generalizing digits exponent with
  | zero => exact le_rfl
  | succ fuel ih =>
      rw [dropZeros]
      split
      · exact (ih _ _).trans (Nat.div_le_self digits 10)
      · exact le_rfl

namespace Binary64

variable {b : Binary64}

theorem num_div_den (b : Binary64) : (b.num : ℚ) / b.den = b.magnitude := by
  rw [num, den, magnitude, zpow_eq_div, pow2_eq, pow2_eq]
  push_cast
  rw [mul_div_assoc]

/-- On a grid of eighteen digits there is a point closer than any other double. -/
theorem abs_roundHalfEven_sub_lt (hb : b.Canonical) {leading : ℤ}
    (hleading : (10 : ℚ) ^ leading ≤ b.magnitude) :
    |(roundHalfEven (b.interval.value * pow10 (-(leading - 17)).toNat)
        (b.interval.den * pow10 (leading - 17).toNat) : ℚ) * 10 ^ (leading - 17) - b.magnitude| <
      1 / 4 * 2 ^ b.exponent := by
  have hgrid : (0 : ℚ) < 10 ^ (leading - 17) := by positivity
  have hunit : (0 : ℚ) < 2 ^ b.exponent := by positivity
  have herror := roundHalfEven_error
    (b.interval.value * pow10 (-(leading - 17)).toNat)
    (Nat.mul_pos b.interval_den_pos (pow10_pos (leading - 17).toNat))
  have hscaled : ((b.interval.value * pow10 (-(leading - 17)).toNat : ℕ) : ℚ) /
      (b.interval.den * pow10 (leading - 17).toNat : ℕ) = b.magnitude / 10 ^ (leading - 17) := by
    rw [← interval_value]
    exact_mod_cast scaled_div b.interval.value b.interval.den 10 (leading - 17)
  rw [hscaled] at herror
  have hmantissa : (b.mantissa : ℚ) < 2 ^ 53 := by exact_mod_cast hb.mantissa_lt
  have hfine : (10 : ℚ) ^ (leading - 17) < 1 / 10 * 2 ^ b.exponent := by
    have hbound : (10 : ℚ) ^ leading < 2 ^ 53 * 2 ^ b.exponent :=
      hleading.trans_lt (mul_lt_mul_of_pos_right hmantissa hunit)
    rw [zpow_sub₀ (by norm_num), div_lt_iff₀ (by positivity)]
    norm_num at hbound ⊢
    linarith
  calc _ = |(roundHalfEven (b.interval.value * pow10 (-(leading - 17)).toNat)
        (b.interval.den * pow10 (leading - 17).toNat) : ℚ) - b.magnitude / 10 ^ (leading - 17)| *
          10 ^ (leading - 17) := by
        rw [← abs_of_pos hgrid, ← abs_mul, abs_of_pos hgrid, sub_mul, div_mul_cancel₀ _ hgrid.ne']
    _ ≤ 1 / 2 * 10 ^ (leading - 17) := mul_le_mul_of_nonneg_right herror hgrid.le
    _ < 1 / 4 * 2 ^ b.exponent := by linarith

/-- Whatever count of digits the search ends at, its decimal rounds to the double. -/
theorem covers_shortestFrom (hb : b.Canonical) (hpos : 0 < b.mantissa) {leading : ℤ}
    (hleading : (10 : ℚ) ^ leading ≤ b.magnitude) {left count : ℕ} (hcount : left + count = 17) :
    b.Covers ((b.interval.shortestFrom leading left count).1 *
      10 ^ (b.interval.shortestFrom leading left count).2) := by
  induction left generalizing count with
  | zero =>
      obtain rfl : count = 17 := by omega
      have hfinest := covers_of_abs_lt (abs_roundHalfEven_sub_lt hb hleading)
      rw [neg_sub] at hfinest
      exact hfinest
  | succ left ih =>
      rw [Interval.shortestFrom]
      cases hneighbour : b.interval.neighbour? (leading - count) with
      | none => exact ih (by omega)
      | some digits => exact covers_of_holds hpos (neighbour_holds hneighbour)

theorem shortestFrom_exponent {r : Interval} {leading : ℤ} {left count : ℕ}
    (hcount : left + count = 17) :
    leading - 17 ≤ (r.shortestFrom leading left count).2 := by
  induction left generalizing count with
  | zero =>
      rw [Interval.shortestFrom]
      dsimp only
      omega
  | succ left ih =>
      rw [Interval.shortestFrom]
      cases r.neighbour? (leading - count) with
      | none => exact ih (by omega)
      | some digits =>
          dsimp only
          omega

/-- A decimal that rounds to a double has few digits if its grid is not finer than eighteen. -/
theorem lt_of_covers (hpos : 0 < b.mantissa) {leading exponent : ℤ} {digits : ℕ}
    (hleading : b.magnitude < 10 ^ (leading + 1)) (hexponent : leading - 17 ≤ exponent)
    (hcovers : b.Covers (digits * 10 ^ exponent)) : digits < 2 ^ 64 := by
  have hunit : (0 : ℚ) < 2 ^ b.exponent := by positivity
  have hgrid : (0 : ℚ) < 10 ^ (leading - 17) := by positivity
  have hmantissa : (1 : ℚ) ≤ b.mantissa := by exact_mod_cast hpos
  have hle : (digits : ℚ) * 10 ^ (leading - 17) ≤ digits * 10 ^ exponent := by
    gcongr
    norm_num
  have htwice : (b.mantissa + 1 / 2) * 2 ^ b.exponent ≤ 2 * b.magnitude := by
    rw [magnitude]
    nlinarith
  have hshift : (10 : ℚ) ^ (leading + 1) = 10 ^ 18 * 10 ^ (leading - 17) := by
    rw [show leading + 1 = ((18 : ℕ) : ℤ) + (leading - 17) by push_cast; ring,
      zpow_add₀ (by norm_num), zpow_natCast]
  have hdigits : (digits : ℚ) < 2 * 10 ^ 18 := by
    rw [hshift] at hleading
    have := hcovers.high
    by_contra! hmany
    have := mul_le_mul_of_nonneg_right hmany hgrid.le
    linarith
  have : digits < 2 * 10 ^ 18 := by exact_mod_cast hdigits
  omega

/-- The digits of the shortest decimal round to the double, and fit a word. -/
theorem covers_shortest (hb : b.Canonical) (hpos : 0 < b.mantissa) :
    b.Covers (b.shortest.1 * 10 ^ b.shortest.2) ∧ b.shortest.1 < 2 ^ 64 := by
  have hnum : 0 < b.num := Nat.mul_pos hpos (Nat.pow_pos two_pos)
  have hden : 0 < b.den := Nat.pow_pos two_pos
  obtain ⟨hleading, hnext⟩ := leadingExponent_spec hnum hden
  rw [num_div_den] at hleading hnext
  have hcount : 17 + 0 = 17 := rfl
  have hcovers := covers_shortestFrom hb hpos hleading hcount
  have hexponent : leadingExponent b.num b.den - 17 ≤
      (b.interval.shortestFrom (leadingExponent b.num b.den) 17 0).2 :=
    shortestFrom_exponent hcount
  have hshortest : b.shortest = dropZeros 20
      (b.interval.shortestFrom (leadingExponent b.num b.den) 17 0).1
      (b.interval.shortestFrom (leadingExponent b.num b.den) 17 0).2 := rfl
  rw [hshortest, dropZeros_value]
  exact ⟨hcovers, lt_of_le_of_lt (dropZeros_le _ _ _) (lt_of_covers hpos hnext hexponent hcovers)⟩

theorem Covers.lt_of_canonical {q : ℚ} (hcovers : b.Covers q) (hb : b.Canonical)
    (hpos : 0 < b.mantissa) : 2 ^ (-1075 : ℤ) ≤ q ∧ q < 2 ^ (1024 : ℤ) := by
  have hmantissa : (1 : ℚ) ≤ b.mantissa := by exact_mod_cast hpos
  have hquarters : (b.quartersBelow : ℚ) ≤ 2 := by exact_mod_cast b.quartersBelow_le
  have hfull : (b.mantissa : ℚ) + 1 ≤ 2 ^ 53 := by exact_mod_cast hb.mantissa_lt
  have hleast : (2 : ℚ) ^ (-1074 : ℤ) ≤ 2 ^ b.exponent :=
    (zpow_le_zpow_iff_right₀ one_lt_two).mpr hb.exponent_ge
  have hlargest : (2 : ℚ) ^ b.exponent ≤ 2 ^ (971 : ℤ) :=
    (zpow_le_zpow_iff_right₀ one_lt_two).mpr hb.exponent_le
  constructor
  · refine le_trans ?_ hcovers.low
    calc (2 : ℚ) ^ (-1075 : ℤ) = 1 / 2 * 2 ^ (-1074 : ℤ) := by
          rw [show (-1075 : ℤ) = -1074 - 1 by norm_num, zpow_sub_one₀ two_ne_zero]
          ring
      _ ≤ 1 / 2 * 2 ^ b.exponent := by linarith
      _ ≤ _ := mul_le_mul_of_nonneg_right (by linarith) (by positivity)
  · refine lt_of_le_of_lt hcovers.high ?_
    calc ((b.mantissa : ℚ) + 1 / 2) * 2 ^ b.exponent < 2 ^ 53 * 2 ^ b.exponent :=
          mul_lt_mul_of_pos_right (by linarith) (by positivity)
      _ ≤ 2 ^ 53 * 2 ^ (971 : ℤ) := by linarith
      _ = 2 ^ (1024 : ℤ) := by
          rw [show (1024 : ℤ) = ((53 : ℕ) : ℤ) + 971 by norm_num, zpow_add₀ two_ne_zero,
            zpow_natCast]

theorem Covers.digits_pos (hb : b.Canonical) (hpos : 0 < b.mantissa) {digits : ℕ} {exponent : ℤ}
    (hcovers : b.Covers (digits * 10 ^ exponent)) : 0 < digits := by
  apply Nat.pos_of_ne_zero
  rintro rfl
  obtain ⟨hlow, -⟩ := hcovers.lt_of_canonical hb hpos
  rw [Nat.cast_zero, zero_mul] at hlow
  exact absurd hlow (not_le_of_gt (by positivity))

section Range

variable {digits : ℕ} {exponent : ℤ}

theorem le_exponent (hdigits : digits < 2 ^ 64)
    (hlow : (2 : ℚ) ^ (-1075 : ℤ) ≤ digits * 10 ^ exponent) : -400 ≤ exponent := by
  by_contra! h
  have hdigitsQ : (digits : ℚ) < 2 ^ 64 := by exact_mod_cast hdigits
  have hpower : (10 : ℚ) ^ exponent ≤ 10 ^ (-400 : ℤ) :=
    (zpow_le_zpow_iff_right₀ (by norm_num)).mpr h.le
  have hbound : (digits : ℚ) * 10 ^ exponent ≤ 2 ^ 64 * 10 ^ (-400 : ℤ) := by gcongr
  have hfar : (2 : ℚ) ^ 64 * 10 ^ (-400 : ℤ) < 2 ^ (-1075 : ℤ) := by
    have hpowers : (2 : ℚ) ^ 64 * 2 ^ 1075 < 10 ^ 400 := by
      exact_mod_cast (by decide +kernel : 2 ^ 64 * 2 ^ 1075 < 10 ^ 400)
    rw [zpow_neg, zpow_neg, ← div_eq_mul_inv, ← one_div, div_lt_div_iff₀ (by positivity)
      (by positivity), one_mul]
    exact_mod_cast hpowers
  exact absurd (hlow.trans hbound) (not_le_of_gt hfar)

theorem exponent_le (hsome : 0 < digits) (hhigh : (digits : ℚ) * 10 ^ exponent < 2 ^ (1024 : ℤ)) :
    exponent ≤ 382 := by
  by_contra! h
  have honeQ : (1 : ℚ) ≤ digits := by exact_mod_cast hsome
  have hpower : (10 : ℚ) ^ (383 : ℤ) ≤ 10 ^ exponent :=
    (zpow_le_zpow_iff_right₀ (by norm_num)).mpr h
  have hbound : (1 : ℚ) * 10 ^ (383 : ℤ) ≤ digits * 10 ^ exponent := by gcongr
  have hfar : (2 : ℚ) ^ (1024 : ℤ) < 1 * 10 ^ (383 : ℤ) := by
    rw [one_mul]
    exact_mod_cast (by decide +kernel : 2 ^ 1024 < 10 ^ 383)
  exact absurd (hbound.trans_lt hhigh) (not_lt_of_gt hfar)

end Range

/-- Digits that round to a double are read as that double, whatever their exponent. -/
theorem ofDecimal_eq (hb : b.Canonical) (hpos : 0 < b.mantissa) {digits : ℕ} {exponent : ℤ}
    (hdigits : digits < 2 ^ 64) (hcovers : b.Covers (digits * 10 ^ exponent)) (negative : Bool) :
    ofDecimal negative digits exponent = pack negative b.mantissa b.exponent := by
  obtain ⟨hlow, hhigh⟩ := hcovers.lt_of_canonical hb hpos
  have hsome := hcovers.digits_pos hb hpos
  have hsmall := le_exponent hdigits hlow
  have hlarge := exponent_le hsome hhigh
  have hlog : digits.log2 < 64 := (Nat.log2_lt hsome.ne').mpr hdigits
  have hrange : ¬(digits = 0 ∨ (digits.log2 : ℤ) * 3 / 10 + exponent < -400) := by omega
  have hrange' : ¬400 < (digits.log2 : ℤ) * 3 / 10 + exponent := by omega
  rw [mul_zpow_eq_div] at hcovers
  rw [ofDecimal, if_neg hrange, if_neg hrange']
  exact ofRatio_eq hb (Nat.mul_pos hsome (pow10_pos _)).ne' (pow10_pos _).ne' hcovers negative

end Binary64

end SparseWeights.Decimal
