import SparseWeights.Proofs.Binary.Value

/-!
Rounding to the nearest double. An extended mantissa stands for a number to which its
mantissa is the whole part; the round bit is the first bit behind it, and the sticky bit
tells whether anything follows. Shifts keep this reading, so that the rounded mantissa is a
whole number nearest to what is rounded, on the grid of the exponent that is aimed at. No
other double is nearer, because the ones off that grid are too small.
-/

namespace SparseWeights.Binary

open Float.Model Float.Model.UnpackedFloat

/-- What an extended mantissa says about a number. -/
def Describes (em : ExtendedMantissa) (q : ℚ) : Prop :=
  let low : ℚ := em.mantissa + if em.roundBit then 1 / 2 else 0
  if em.stickyBit then low < q ∧ q < low + 1 / 2 else q = low

section Describes

variable {em : ExtendedMantissa} {q : ℚ}

theorem describes_exact (m : ℕ) :
    Describes (ExtendedMantissa.ofMantissaAndAccuracy m .exact) m := by
  simp [Describes, ExtendedMantissa.ofMantissaAndAccuracy]

theorem describes_fraction (num : ℕ) {den : ℕ} (hden : 0 < den) :
    Describes (ExtendedMantissa.ofMantissaAndAccuracy (num / den)
      (accuracyOfFraction (num % den) den)) (num / den) := by
  have hdenQ : (0 : ℚ) < den := by exact_mod_cast hden
  have hsplit : (num : ℚ) / den = (num / den : ℕ) + (num % den : ℕ) / den := by
    have hnum : (num : ℚ) = den * (num / den : ℕ) + (num % den : ℕ) := by
      exact_mod_cast (Nat.div_add_mod num den).symm
    rw [eq_comm, add_div' _ _ _ hdenQ.ne', mul_comm, ← hnum]
  have hrest := Nat.mod_lt num hden
  rw [hsplit]
  generalize num / den = quotient
  generalize num % den = rest at hrest
  have hless : (rest : ℚ) / den < 1 := by
    rw [div_lt_one hdenQ]
    exact_mod_cast hrest
  rcases Nat.eq_zero_or_pos rest with rfl | hpos
  · simpa [accuracyOfFraction] using describes_exact quotient
  have hposQ : (0 : ℚ) < rest / den := by positivity
  rw [accuracyOfFraction, if_neg hpos.ne']
  rcases lt_trichotomy (2 * rest) den with hlt | heq | hgt
  · have hhalf : (rest : ℚ) / den < 1 / 2 := by
      rw [div_lt_iff₀ hdenQ]
      have : (2 : ℚ) * rest < den := by exact_mod_cast hlt
      linarith
    rw [Nat.compare_eq_lt.mpr hlt]
    simp only [Describes, ExtendedMantissa.ofMantissaAndAccuracy]
    norm_num
    constructor <;> linarith
  · have hhalf : (rest : ℚ) / den = 1 / 2 := by
      rw [div_eq_iff hdenQ.ne']
      have : (2 : ℚ) * rest = den := by exact_mod_cast heq
      linarith
    rw [Nat.compare_eq_eq.mpr heq]
    simp only [Describes, ExtendedMantissa.ofMantissaAndAccuracy]
    norm_num [hhalf]
  · have hhalf : 1 / 2 < (rest : ℚ) / den := by
      rw [lt_div_iff₀ hdenQ]
      have : (den : ℚ) < 2 * rest := by exact_mod_cast hgt
      linarith
    rw [Nat.compare_eq_gt.mpr hgt]
    simp only [Describes, ExtendedMantissa.ofMantissaAndAccuracy]
    norm_num
    constructor <;> linarith

theorem Describes.shiftRightOne (h : Describes em q) : Describes em.shiftRightOne (q / 2) := by
  obtain ⟨m, roundBit, stickyBit⟩ := em
  obtain ⟨k, rfl | rfl⟩ := m.even_or_odd'
  · have hhalf : 2 * k / 2 = k := by omega
    cases roundBit <;> cases stickyBit <;>
      simp [Describes, ExtendedMantissa.shiftRightOne, hhalf] at h ⊢ <;>
      first
      | linarith
      | constructor <;> linarith
  · have hhalf : (2 * k + 1) / 2 = k := by omega
    cases roundBit <;> cases stickyBit <;>
      simp [Describes, ExtendedMantissa.shiftRightOne, hhalf] at h ⊢ <;>
      first
      | linarith
      | constructor <;> linarith

theorem Describes.shiftRight (h : Describes em q) (k : ℕ) :
    Describes (em >>> k) (q / 2 ^ k) := by
  change Describes (k.repeat ExtendedMantissa.shiftRightOne em) _
  induction k with
  | zero => simpa [Nat.repeat] using h
  | succ k ih =>
      rw [Nat.repeat, pow_succ, ← div_div]
      exact ih.shiftRightOne

/-- No whole number is nearer than the rounded mantissa. -/
theorem Describes.rounded (h : Describes em q) : |(em.roundedMantissa : ℚ) - q| ≤ 1 / 2 := by
  obtain ⟨m, roundBit, stickyBit⟩ := em
  simp only [Describes] at h
  rw [abs_le]
  cases roundBit <;> cases stickyBit <;>
    simp only [ExtendedMantissa.roundedMantissa, ExtendedMantissa.accuracy,
      Accuracy.roundToNearestEven] <;>
    norm_num at h ⊢
  · constructor <;> linarith
  · constructor <;> linarith
  · rcases Nat.mod_two_eq_zero_or_one m with hbit | hbit <;> rw [hbit, h] <;> constructor <;>
      push_cast <;> linarith
  · constructor <;> linarith

end Describes

/-- An unpacked double to which a number rounds if exponents have no largest one: none is
nearer, and it has the first 53 bits of a number that is not too small for that. -/
structure Nearest (q : ℚ) (a : UnpackedFloat) : Prop where
  canonical : Canonical a
  le_of_canonical : ∀ c, Canonical c → |value a - q| ≤ |value c - q|
  error_le : 2 ^ (-1022 : ℤ) ≤ |q| → |value a - q| ≤ |q| / 2 ^ 53

theorem nearest_value {a : UnpackedFloat} (ha : Canonical a) : Nearest (value a) a where
  canonical := ha
  le_of_canonical c _ := by simp
  error_le _ := by
    rw [sub_self, abs_zero]
    positivity

theorem abs_sub_le_of_whole {r k : ℤ} {q : ℚ} (h : |(r : ℚ) - q| ≤ 1 / 2) :
    |(r : ℚ) - q| ≤ |(k : ℚ) - q| := by
  rcases eq_or_ne k r with rfl | hne
  · exact le_rfl
  · have hgap : (1 : ℚ) ≤ |(k : ℚ) - r| := by
      exact_mod_cast Int.one_le_abs (sub_ne_zero.mpr hne)
    have htriangle : |(k : ℚ) - r| ≤ |(k : ℚ) - q| + |(r : ℚ) - q| := by
      rw [abs_sub_comm (r : ℚ) q]
      exact abs_sub_le _ _ _
    linarith

/-- A double stands for a whole number of places of its exponent, and of all lower ones. -/
theorem exists_value_eq {c : UnpackedFloat} {t : ℤ}
    (hc : ∀ s m e hm, c = .finite s m e hm → t ≤ e) : ∃ k : ℤ, value c = k * 2 ^ t := by
  rcases c with s | _ | s | ⟨s, m, e, hm⟩
  · exact ⟨0, by simp [value]⟩
  · exact ⟨0, by simp [value]⟩
  · exact ⟨0, by simp [value]⟩
  · obtain ⟨k, hk⟩ := Int.le.dest (hc s m e hm rfl)
    refine ⟨s.apply m * 2 ^ k, ?_⟩
    rw [value, ← hk, zpow_add₀ two_ne_zero, zpow_natCast]
    push_cast
    ring

theorem abs_value_lt {c : UnpackedFloat} (hc : Canonical c) {s m e hm}
    (heq : c = .finite s m e hm) {t : ℤ} (hlt : e < t) : |value c| < 2 ^ 52 * 2 ^ t := by
  subst heq
  have hmantissa : (m : ℚ) < 2 ^ 53 := by exact_mod_cast hc.1
  have hsign : |(s.apply m : ℚ)| = m := by
    cases s <;> simp [Sign.apply]
  rw [value, abs_mul, hsign, abs_of_pos (zpow_two_pos e)]
  calc
    (m : ℚ) * 2 ^ e < 2 ^ 53 * 2 ^ e := by
      have := zpow_two_pos e
      gcongr
    _ = 2 ^ 52 * 2 ^ (e + 1) := by
      rw [zpow_add_one₀ two_ne_zero]
      ring
    _ ≤ 2 ^ 52 * 2 ^ t := by
      have : (2 : ℚ) ^ (e + 1) ≤ 2 ^ t := zpow_le_zpow_right₀ one_le_two hlt
      gcongr

theorem abs_mul_zpow_sub (z q : ℚ) (t : ℤ) :
    |z * 2 ^ t - q| = |z - q / 2 ^ t| * 2 ^ t := by
  have hunit := zpow_two_pos t
  rw [← abs_of_pos hunit, ← abs_mul, abs_of_pos hunit, sub_mul, div_mul_cancel₀ _ hunit.ne']

/-- On a grid on which a number takes at least 53 bits, rounding keeps the first 53 of them. -/
theorem abs_grid_sub_le_div {r t : ℤ} {q : ℚ} (hr : |(r : ℚ) - q / 2 ^ t| ≤ 1 / 2)
    (hplaces : 2 ^ 52 * 2 ^ t ≤ |q|) : |r * 2 ^ t - q| ≤ |q| / 2 ^ 53 := by
  rw [abs_mul_zpow_sub]
  calc
    _ ≤ 1 / 2 * (2 : ℚ) ^ t := mul_le_mul_of_nonneg_right hr (zpow_two_pos t).le
    _ = 2 ^ 52 * 2 ^ t / 2 ^ 53 := by ring
    _ ≤ |q| / 2 ^ 53 := by gcongr

/-- Rounding a number to a grid, on which it takes at least 53 bits unless it is the finest one,
leaves no double that is nearer. -/
theorem abs_grid_sub_le {r t : ℤ} {q : ℚ} (hr : |(r : ℚ) - q / 2 ^ t| ≤ 1 / 2)
    (hgrid : 2 ^ 52 * 2 ^ t ≤ |q| ∨ t = -1074) {c : UnpackedFloat} (hc : Canonical c) :
    |r * 2 ^ t - q| ≤ |value c - q| := by
  have hunit := zpow_two_pos t
  have hwhole (k : ℤ) : |r * 2 ^ t - q| ≤ |k * 2 ^ t - q| := by
    rw [abs_mul_zpow_sub, abs_mul_zpow_sub]
    exact mul_le_mul_of_nonneg_right (abs_sub_le_of_whole hr) hunit.le
  by_cases hcoarse : ∀ s m e hm, c = .finite s m e hm → t ≤ e
  · obtain ⟨k, hk⟩ := exists_value_eq hcoarse
    rw [hk]
    exact hwhole k
  · push Not at hcoarse
    obtain ⟨s, m, e, hm, heq, hlt⟩ := hcoarse
    have hleast : -1074 ≤ e := by
      subst heq
      exact hc.2.1
    have hsmall := abs_value_lt hc heq hlt
    have hlarge := hgrid.resolve_right (by omega)
    -- The end of the grid on the side of the number is nearer than any smaller double.
    obtain ⟨k, hk⟩ : ∃ k : ℤ, |k * 2 ^ t - q| = |q| - 2 ^ 52 * 2 ^ t := by
      rcases le_total 0 q with hq | hq
      · refine ⟨(2 ^ 52 : ℕ), ?_⟩
        rw [abs_of_nonneg hq] at hlarge ⊢
        rw [Int.cast_natCast, Nat.cast_pow, Nat.cast_ofNat, abs_sub_comm,
          abs_of_nonneg (sub_nonneg.mpr hlarge)]
      · refine ⟨-(2 ^ 52 : ℕ), ?_⟩
        rw [abs_of_nonpos hq] at hlarge ⊢
        rw [Int.cast_neg, Int.cast_natCast, Nat.cast_pow, Nat.cast_ofNat, neg_mul, neg_sub_comm,
          abs_of_nonneg (sub_nonneg.mpr hlarge)]
    have hback : |q| - |value c| ≤ |value c - q| := by
      rw [abs_sub_comm (value c)]
      exact abs_sub_abs_le_abs_sub q (value c)
    refine (hwhole k).trans ?_
    rw [hk]
    linarith

theorem targetExponent_eq (m : ℕ) (e : ℤ) :
    Format.binary64.targetExponent (totalExponent m e) = max (m.log2 + e - 52) (-1074) := by
  change max ((m.log2 : ℤ) + 1 + e - (1 + 52 : ℕ)) (3 - 2 ^ 10 - (1 + 52 : ℕ)) = _
  omega

theorem Describes.mantissa_le {em : ExtendedMantissa} {q : ℚ} (h : Describes em q) :
    em.mantissa ≤ q ∧ q < em.mantissa + 1 := by
  obtain ⟨m, roundBit, stickyBit⟩ := em
  simp only [Describes] at h
  cases roundBit <;> cases stickyBit <;> norm_num at h <;> constructor <;> linarith

/-- After rounding nothing is left to shift but the carry. -/
theorem shift_rounded {r : ℕ} {t : ℤ} (hr : r ≤ 2 ^ 53) (ht : -1074 ≤ t) :
    shiftToTargetExponent Format.binary64 r t .exact =
      if r = 2 ^ 53 then (⟨2 ^ 52, false, false⟩, t + 1) else (⟨r, false, false⟩, t) := by
  rw [shiftToTargetExponent, targetExponent_eq, shiftToExponent]
  split
  next hcarry =>
    subst hcarry
    have hshift : (max (((2 ^ 53 : ℕ).log2 : ℤ) + t - 52) (-1074) - t).toNat = 1 := by
      rw [Nat.log2_two_pow]
      omega
    rw [hshift]
    rfl
  next hcarry =>
    have hlog : r.log2 ≤ 52 := by
      rcases eq_or_ne r 0 with rfl | hne
      · decide
      · exact Nat.le_of_lt_succ ((Nat.log2_lt hne).mpr (by omega))
    have hshift : (max ((r.log2 : ℤ) + t - 52) (-1074) - t).toNat = 0 := by omega
    rw [hshift, Nat.cast_zero, add_zero]
    rfl

section Round

variable {s : Sign} {m : ℕ} {e : ℤ} {accuracy : Accuracy} {q : ℚ}

theorem roundWithAccuracy_eq {r : ℕ} {t : ℤ}
    (ht : max ((m.log2 : ℤ) + e - 52) (-1074) = t) (he : e ≤ t)
    (hr : (ExtendedMantissa.ofMantissaAndAccuracy m accuracy >>> (t - e).toNat).roundedMantissa = r)
    (hle : r ≤ 2 ^ 53) (hcanonical : 2 ^ 52 ≤ r ∨ t = -1074) :
    Canonical (roundWithAccuracy Format.binary64 s m e accuracy) ∧
      value (roundWithAccuracy Format.binary64 s m e accuracy) = s.apply r * 2 ^ t := by
  have hexponent : e + ((t - e).toNat : ℤ) = t := by omega
  have hround : roundWithAccuracy Format.binary64 s m e accuracy =
      (fun final : ExtendedMantissa × ℤ => if h : final.1.mantissa = 0 then UnpackedFloat.zero s
        else .finite s final.1.mantissa final.2 (Nat.pos_of_ne_zero h))
      (if r = 2 ^ 53 then (⟨2 ^ 52, false, false⟩, t + 1) else (⟨r, false, false⟩, t)) := by
    have hfirst : shiftToTargetExponent Format.binary64 m e accuracy =
        (ExtendedMantissa.ofMantissaAndAccuracy m accuracy >>> (t - e).toNat, t) := by
      rw [shiftToTargetExponent, targetExponent_eq, shiftToExponent, ht, hexponent]
    rw [← shift_rounded hle (by omega), roundWithAccuracy, hfirst]
    simp only [hr]
  rw [hround]
  split
  next hcarry =>
    have hfull : ¬2 ^ 52 = 0 := by decide
    simp only [dif_neg hfull]
    refine ⟨⟨by decide, by omega, .inl le_rfl⟩, ?_⟩
    rw [value, hcarry, zpow_add_one₀ two_ne_zero]
    cases s <;> simp only [Sign.apply] <;> push_cast <;> ring
  next hcarry =>
    rcases eq_or_ne r 0 with rfl | hne
    · simp only [↓reduceDIte]
      refine ⟨trivial, ?_⟩
      cases s <;> simp [value, Sign.apply]
    · simp only [dif_neg hne]
      exact ⟨⟨by omega, by omega, hcanonical⟩, rfl⟩

theorem ofMantissaAndAccuracy_mantissa (m : ℕ) (accuracy : Accuracy) :
    (ExtendedMantissa.ofMantissaAndAccuracy m accuracy).mantissa = m := by
  rcases accuracy with _ | (_ | _ | _) <;> rfl

/-- On the grid that is aimed at a number takes at most 53 bits, and no fewer unless the grid is the
finest one. -/
theorem grid_bounds {t : ℤ} (hlow : (m : ℚ) ≤ q / 2 ^ e) (hhigh : q / 2 ^ e < m + 1)
    (ht : max ((m.log2 : ℤ) + e - 52) (-1074) = t) (he : e ≤ t) :
    q / 2 ^ t < 2 ^ 53 ∧ (2 ^ 52 ≤ q / 2 ^ t ∨ t = -1074) := by
  have hunit := zpow_two_pos e
  have hbits : (m : ℚ) + 1 ≤ 2 ^ (m.log2 + 1) := by exact_mod_cast Nat.lt_log2_self (n := m)
  rw [le_div_iff₀ hunit] at hlow
  rw [div_lt_iff₀ hunit] at hhigh
  constructor
  · rw [div_lt_iff₀ (zpow_two_pos t)]
    calc
      q < (m + 1) * 2 ^ e := hhigh
      _ ≤ 2 ^ (m.log2 + 1) * 2 ^ e := mul_le_mul_of_nonneg_right hbits hunit.le
      _ = 2 ^ (((m.log2 + 1 : ℕ) : ℤ) + e) := by rw [zpow_add₀ two_ne_zero, zpow_natCast]
      _ ≤ 2 ^ (((53 : ℕ) : ℤ) + t) := zpow_le_zpow_right₀ one_le_two (by omega)
      _ = 2 ^ 53 * 2 ^ t := by rw [zpow_add₀ two_ne_zero, zpow_natCast]
  · rcases eq_or_ne t (-1074) with hleast | hmore
    · exact .inr hleast
    · left
      have hm : m ≠ 0 := by
        rintro rfl
        rw [Nat.log2_zero] at ht
        omega
      have hleading : (2 : ℚ) ^ m.log2 ≤ m := by exact_mod_cast Nat.log2_self_le hm
      rw [le_div_iff₀ (zpow_two_pos t)]
      calc
        (2 : ℚ) ^ 52 * 2 ^ t = 2 ^ (((52 : ℕ) : ℤ) + t) := by
          rw [zpow_add₀ two_ne_zero, zpow_natCast]
        _ = 2 ^ ((m.log2 : ℤ) + e) := by
          congr 1
          omega
        _ = 2 ^ m.log2 * 2 ^ e := by rw [zpow_add₀ two_ne_zero, zpow_natCast]
        _ ≤ m * 2 ^ e := mul_le_mul_of_nonneg_right hleading hunit.le
        _ ≤ q := hlow

/-- Rounding what a mantissa and its accuracy describe, unless the exponent is above the one that
is aimed at. -/
theorem nearest_roundWithAccuracy (hq : 0 ≤ q)
    (hdescribes : Describes (ExtendedMantissa.ofMantissaAndAccuracy m accuracy) (q / 2 ^ e))
    (he : e ≤ max ((m.log2 : ℤ) + e - 52) (-1074)) :
    Nearest (s.apply 1 * q) (roundWithAccuracy Format.binary64 s m e accuracy) := by
  obtain ⟨t, ht⟩ : ∃ t, max ((m.log2 : ℤ) + e - 52) (-1074) = t := ⟨_, rfl⟩
  rw [ht] at he
  obtain ⟨hlow, hhigh⟩ := hdescribes.mantissa_le
  rw [ofMantissaAndAccuracy_mantissa] at hlow hhigh
  obtain ⟨hbelow, habove⟩ := grid_bounds hlow hhigh ht he
  have hpower : (2 : ℚ) ^ t = 2 ^ e * 2 ^ (t - e).toNat := by
    rw [← zpow_natCast, ← zpow_add₀ two_ne_zero, Int.toNat_of_nonneg (sub_nonneg.mpr he)]
    congr 1
    omega
  have hrounded := (hdescribes.shiftRight (t - e).toNat).rounded
  rw [div_div, ← hpower] at hrounded
  obtain ⟨r, hr⟩ : ∃ r, (ExtendedMantissa.ofMantissaAndAccuracy m accuracy >>>
    (t - e).toNat).roundedMantissa = r := ⟨_, rfl⟩
  rw [hr] at hrounded
  obtain ⟨hleft, hright⟩ := abs_le.mp hrounded
  have hle : r ≤ 2 ^ 53 := by
    have hnext : (r : ℚ) < 2 ^ 53 + 1 := by linarith
    exact Nat.lt_succ_iff.mp (by exact_mod_cast hnext)
  have hfull : 2 ^ 52 ≤ r ∨ t = -1074 := by
    refine habove.imp_left fun h => ?_
    have hnext : (2 : ℚ) ^ 52 < r + 1 := by linarith
    exact Nat.lt_succ_iff.mp (by exact_mod_cast hnext)
  obtain ⟨hcanonical, hvalue⟩ :=
    roundWithAccuracy_eq (s := s) ht he hr hle hfull
  have hgrid : |(s.apply r : ℚ) - s.apply 1 * q / 2 ^ t| ≤ 1 / 2 := by
    cases s <;> simp only [Sign.apply] <;> push_cast
    · rw [← abs_neg]
      convert hrounded using 2
      ring
    · rwa [one_mul]
  have hmagnitude : |s.apply 1 * q| = q := by
    cases s <;> simp [Sign.apply, abs_of_nonneg hq]
  have hunit := zpow_two_pos t
  refine ⟨hcanonical, fun c hc => ?_, fun hnormal => ?_⟩
  · rw [hvalue]
    refine abs_grid_sub_le hgrid ?_ hc
    rwa [hmagnitude, ← le_div_iff₀ hunit]
  · rw [hvalue]
    refine abs_grid_sub_le_div hgrid ?_
    rw [hmagnitude] at hnormal ⊢
    rcases habove with habove | hleast
    · rwa [le_div_iff₀ hunit] at habove
    · have hsplit : (2 : ℚ) ^ (-1022 : ℤ) = 2 ^ 52 * 2 ^ t := by
        rw [hleast, ← zpow_natCast, ← zpow_add₀ two_ne_zero]
        rfl
      rwa [← hsplit]

/-- Lowering an exponent keeps the number. -/
theorem decreaseExponent_value (m : ℕ) (e t : ℤ) :
    ((decreaseExponent m e t).1 : ℚ) * 2 ^ (decreaseExponent m e t).2 = m * 2 ^ e := by
  rw [decreaseExponent, Nat.shiftLeft_eq]
  push_cast
  rw [mul_assoc, ← zpow_natCast, ← zpow_add₀ two_ne_zero, add_sub_cancel]

theorem log2_mul_two_pow (hm : m ≠ 0) (k : ℕ) : (m * 2 ^ k).log2 = m.log2 + k := by
  rw [Nat.log2_eq_iff (by positivity)]
  constructor
  · rw [pow_add]
    exact Nat.mul_le_mul_right _ (Nat.log2_self_le hm)
  · rw [add_right_comm, pow_add]
    exact Nat.mul_lt_mul_of_pos_right Nat.lt_log2_self (by positivity)

theorem nearest_round (hm : m ≠ 0) :
    Nearest (s.apply m * 2 ^ e) (UnpackedFloat.round Format.binary64 s m e) := by
  obtain ⟨t, ht⟩ : ∃ t, max ((m.log2 : ℤ) + e - 52) (-1074) = t := ⟨_, rfl⟩
  have hvalue := decreaseExponent_value m e t
  have htarget : (decreaseExponent m e t).2 ≤
      max (((decreaseExponent m e t).1.log2 : ℤ) + (decreaseExponent m e t).2 - 52) (-1074) := by
    rw [decreaseExponent, Nat.shiftLeft_eq, log2_mul_two_pow hm]
    push_cast
    omega
  have hdescribes : Describes
      (ExtendedMantissa.ofMantissaAndAccuracy (decreaseExponent m e t).1 .exact)
      (m * 2 ^ e / 2 ^ (decreaseExponent m e t).2) := by
    rw [← hvalue, mul_div_cancel_right₀ _ (zpow_two_pos _).ne']
    exact describes_exact _
  have hsigned : (s.apply m : ℚ) * 2 ^ e = s.apply 1 * (m * 2 ^ e) := by
    cases s <;> simp only [Sign.apply] <;> push_cast <;> ring
  rw [UnpackedFloat.round, targetExponent_eq, ht, hsigned]
  exact nearest_roundWithAccuracy (by positivity) hdescribes htarget

end Round

theorem nearest_normalize (z : ℤ) (e : ℤ) (zeroSign : Sign) :
    Nearest (z * 2 ^ e) (UnpackedFloat.normalize Format.binary64 z e zeroSign) := by
  rw [UnpackedFloat.normalize]
  rcases lt_trichotomy z 0 with hneg | rfl | hpos
  · have hround := nearest_round (s := .negative) (m := (-z).toNat) (e := e) (by omega)
    rw [Int.compare_eq_lt.mpr hneg]
    convert hround using 2
    simp [Sign.apply, Int.toNat_of_nonneg (neg_nonneg.mpr hneg.le)]
  · rw [Int.compare_eq_eq.mpr rfl]
    simpa [value] using nearest_value (a := .zero zeroSign) trivial
  · have hround := nearest_round (s := .positive) (m := z.toNat) (e := e) (by omega)
    rw [Int.compare_eq_gt.mpr hpos]
    convert hround using 2
    simp [Sign.apply, Int.toNat_of_nonneg hpos.le]

end SparseWeights.Binary
