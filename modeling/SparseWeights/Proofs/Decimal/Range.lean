import Mathlib
import SparseWeights.Proofs.Decimal.Binary64

/-!
Which fractions have a nearest double that is finite. A word is finite unless its
exponent field is full, so rounding leaves the finite doubles half a place beyond the
largest of them; the end of that interval itself is rounded to the even side, away.
-/

namespace SparseWeights.Decimal

namespace Binary64

open Float.Model in
theorem isFinite_unpack {format : Format} (word : BitVec format.numBits) :
    (UnpackedFloat.unpack format word).isFinite = true ↔
      UnpackedFloat.unpackExponent word ≠ -1#_ := by
  rw [UnpackedFloat.unpack]
  split
  next hfull =>
    refine iff_of_false ?_ (not_not.mpr hfull)
    split <;> exact Bool.false_ne_true
  next hfull =>
    refine iff_of_true ?_ hfull
    split
    · split <;> rfl
    · rfl

open Float.Model in
/-- A word is a finite double unless its exponent field is full. -/
theorem isFinite_ofBits (word : UInt64) :
    (Float.ofBits word).isFinite = true ↔ word.toNat / 2 ^ 52 % 2 ^ 11 ≠ 2047 := by
  -- One word stands for all NaNs, and its exponent field is full as theirs are.
  have hexponent : @UnpackedFloat.unpackExponent Format.binary64 (Float.ofBits word).toBits.toBitVec =
      @UnpackedFloat.unpackExponent Format.binary64 word.toBitVec := by
    change UnpackedFloat.unpackExponent (UnpackedFloat.pack Format.binary64
      (UnpackedFloat.unpack Format.binary64 word.toBitVec)) = _
    rw [UnpackedFloat.pack_unpack]
    split
    next hnan =>
      have hfull := of_decide_eq_true hnan
      rw [UnpackedFloat.packedNaN, UnpackedFloat.unpackExponent_packComponents, hfull.1]
    next => rfl
  rw [Ne, ← unpackExponent_eq_iff, ← hexponent]
  exact isFinite_unpack _

/-- The fields that are packed: with a carry out of the mantissa, the exponent field is full
beyond the largest exponent. -/
theorem exists_pack_eq {m : ℕ} (hm : m ≤ 2 ^ 53) (negative : Bool) (e : ℤ) :
    ∃ field fraction : ℕ, field ≤ 2047 ∧ fraction < 2 ^ 52 ∧
      (field < 2047 ↔ m < 2 ^ 52 ∨ e + (m / 2 ^ 53 : ℕ) ≤ 971) ∧
      pack negative m e = Float.ofBits
        (UInt64.ofNat (field * 2 ^ 52 + fraction + if negative then 2 ^ 63 else 0)) := by
  have hfull {m : ℕ} (hnormal : 2 ^ 52 ≤ m) (hm : m < 2 ^ 53) (e : ℤ) :
      ∃ field fraction : ℕ, field ≤ 2047 ∧ fraction < 2 ^ 52 ∧ (field < 2047 ↔ e ≤ 971) ∧
        pack negative m e = Float.ofBits
          (UInt64.ofNat (field * 2 ^ 52 + fraction + if negative then 2 ^ 63 else 0)) := by
    rcases lt_or_ge (e + 1075).toNat 2047 with hfits | hover
    · exact ⟨_, _, hfits.le, by omega, by omega, pack_of_le hnormal hm negative hfits⟩
    · exact ⟨2047, 0, le_rfl, by decide, by omega, pack_of_ge hnormal hm negative hover⟩
  rcases lt_or_ge m (2 ^ 52) with hsmall | hnormal
  · refine ⟨0, m, Nat.zero_le _, hsmall, iff_of_true (by decide) (.inl hsmall), ?_⟩
    rw [pack_of_lt hsmall, Nat.zero_mul, Nat.zero_add]
  · rcases hm.eq_or_lt with rfl | hlt
    · obtain ⟨field, fraction, hfield, hfraction, hiff, heq⟩ := hfull le_rfl (by decide) (e + 1)
      have hcarry := pack_carry negative (e + 1)
      rw [add_sub_cancel_right] at hcarry
      exact ⟨field, fraction, hfield, hfraction, hiff.trans (by simp), hcarry.trans heq⟩
    · obtain ⟨field, fraction, hfield, hfraction, hiff, heq⟩ := hfull hnormal hlt e
      exact ⟨field, fraction, hfield, hfraction, hiff.trans (by omega), heq⟩

/-- What is packed is finite if the exponent, with a carry out of the mantissa, is at most
the largest one. -/
theorem isFinite_pack {m : ℕ} (hm : m ≤ 2 ^ 53) (negative : Bool) (e : ℤ) :
    (pack negative m e).isFinite = true ↔ m < 2 ^ 52 ∨ e + (m / 2 ^ 53 : ℕ) ≤ 971 := by
  obtain ⟨field, fraction, hfield, hfraction, hiff, heq⟩ := exists_pack_eq hm negative e
  -- The sign bit is beyond the exponent field.
  have hword : (UInt64.ofNat (field * 2 ^ 52 + fraction + if negative then 2 ^ 63 else 0)).toNat /
      2 ^ 52 % 2 ^ 11 = field := by
    rw [UInt64.toNat_ofNat']
    split <;> omega
  rw [heq, isFinite_ofBits, hword, ← hiff]
  omega

variable {num den : ℕ}

theorem units_error (num : ℕ) (hden : den ≠ 0) (exponent : ℤ) :
    |(units num den exponent : ℚ) - num / den / 2 ^ exponent| ≤ 1 / 2 := by
  have herror := roundHalfEven_error (num * pow2 (-exponent).toNat) (grid_pos hden exponent)
  rwa [grid_eq] at herror

theorem le_units (hden : den ≠ 0) {m : ℕ} {exponent : ℤ} (h : (m : ℚ) ≤ num / den / 2 ^ exponent) :
    m ≤ units num den exponent := by
  obtain ⟨herror, _⟩ := abs_le.mp (units_error num hden exponent)
  have hnext : (m : ℚ) < units num den exponent + 1 := by linarith
  exact Nat.lt_succ_iff.mp (by exact_mod_cast hnext)

theorem units_le (hden : den ≠ 0) {m : ℕ} {exponent : ℤ} (h : (num : ℚ) / den / 2 ^ exponent ≤ m) :
    units num den exponent ≤ m := by
  obtain ⟨_, herror⟩ := abs_le.mp (units_error num hden exponent)
  have hnext : (units num den exponent : ℚ) < m + 1 := by linarith
  exact Nat.lt_succ_iff.mp (by exact_mod_cast hnext)

/-- Half a unit under an even number is rounded up to it. -/
theorem units_lt_iff (hden : den ≠ 0) {m : ℕ} (heven : m % 2 = 0) {exponent : ℤ}
    (h : (num : ℚ) / den / 2 ^ exponent ≤ m) :
    units num den exponent < m ↔ (num : ℚ) / den / 2 ^ exponent < m - 1 / 2 := by
  constructor
  · intro hlt
    by_contra! hhalf
    refine hlt.ne (roundHalfEven_eq (grid_pos hden exponent) ?_ ?_ fun _ => heven)
    · rwa [grid_eq]
    · rw [grid_eq]
      linarith
  · intro hlt
    obtain ⟨_, herror⟩ := abs_le.mp (units_error num hden exponent)
    have hunits : (units num den exponent : ℚ) < m := by linarith
    exact_mod_cast hunits

/-- The end of the interval of the largest double: half a place beyond it. -/
def overflow : ℕ := (2 ^ 54 - 1) * 2 ^ 970

theorem overflow_eq : (overflow : ℚ) = (2 ^ 53 - 1 / 2) * 2 ^ (971 : ℤ) := by
  have hplace (n : ℕ) : (2 : ℚ) ^ ((n : ℤ) + 1) = 2 * 2 ^ n := by
    rw [zpow_add_one₀ two_ne_zero, zpow_natCast, mul_comm]
  rw [overflow, show (971 : ℤ) = (970 : ℕ) + 1 from rfl, hplace, Nat.cast_mul, Nat.cast_pow]
  generalize 970 = n
  push_cast
  ring

/-- It lies in the last binade, or at its end. -/
theorem overflow_bounds :
    (2 : ℚ) ^ (((52 : ℕ) : ℤ) + 971) ≤ overflow ∧ (overflow : ℚ) ≤ 2 ^ (((53 : ℕ) : ℤ) + 971) := by
  rw [overflow_eq, zpow_natCast_add, zpow_natCast_add]
  have hplace : (0 : ℚ) < 2 ^ (971 : ℤ) := by positivity
  constructor
  · gcongr
    norm_num
  · gcongr
    norm_num

theorem div_lt_zpow_end (hnum : num ≠ 0) (hden : den ≠ 0) {exponent : ℤ}
    (hexponent : max (topExponent num den - 52) (-1074) = exponent) :
    (num : ℚ) / den < 2 ^ (((53 : ℕ) : ℤ) + exponent) :=
  (topExponent_spec hnum hden).2.trans_le (zpow_le_zpow_right₀ one_le_two (by omega))

/-- On its grid a fraction is at most a full mantissa. -/
theorem div_zpow_le_end (hnum : num ≠ 0) (hden : den ≠ 0) {exponent : ℤ}
    (hexponent : max (topExponent num den - 52) (-1074) = exponent) :
    (num : ℚ) / den / 2 ^ exponent ≤ (2 ^ 53 : ℕ) := by
  have hunder := div_lt_zpow_end hnum hden hexponent
  rw [zpow_natCast_add] at hunder
  rw [div_le_iff₀ (by positivity)]
  exact_mod_cast hunder.le

/-- A fraction is rounded to a finite double if it lies below the end of the interval
of the largest one. -/
theorem isFinite_ofRatio (hden : den ≠ 0) (negative : Bool) :
    (ofRatio negative num den).isFinite = true ↔ (num : ℚ) / den < overflow := by
  obtain ⟨hlast, hend⟩ := overflow_bounds
  rcases eq_or_ne num 0 with rfl | hnum
  · rw [ofRatio, if_pos rfl, isFinite_pack (by decide)]
    refine iff_of_true (.inl (by decide)) ?_
    rw [Nat.cast_zero, zero_div]
    exact lt_of_lt_of_le (by positivity) hlast
  obtain ⟨hbelow, _⟩ := topExponent_spec hnum hden
  obtain ⟨exponent, hexponent⟩ : ∃ e, max (topExponent num den - 52) (-1074) = e := ⟨_, rfl⟩
  have hunit : (0 : ℚ) < 2 ^ exponent := by positivity
  have hunder := div_lt_zpow_end hnum hden hexponent
  have hplaces := div_zpow_le_end hnum hden hexponent
  have hcarry : units num den exponent ≤ 2 ^ 53 := units_le hden hplaces
  rw [ofRatio_eq_pack hnum negative hexponent, isFinite_pack hcarry]
  rcases lt_trichotomy exponent 971 with hless | rfl | hmore
  · refine iff_of_true (.inr (by omega)) (hunder.trans_le (le_trans ?_ hlast))
    exact zpow_le_zpow_right₀ one_le_two (by omega)
  · have hfits : (units num den 971 < 2 ^ 52 ∨ (971 : ℤ) + (units num den 971 / 2 ^ 53 : ℕ) ≤ 971) ↔
        units num den 971 < 2 ^ 53 := by omega
    rw [hfits, units_lt_iff hden (by decide) hplaces, div_lt_iff₀ hunit,
      overflow_eq, Nat.cast_pow, Nat.cast_ofNat]
  · have hreached : (2 : ℚ) ^ (((52 : ℕ) : ℤ) + exponent) ≤ num / den := by
      rwa [show ((52 : ℕ) : ℤ) + exponent = topExponent num den by omega]
    have hnormal : 2 ^ 52 ≤ units num den exponent := by
      apply le_units hden
      rw [le_div_iff₀ hunit]
      exact_mod_cast zpow_natCast_add 52 exponent ▸ hreached
    refine iff_of_false (by omega) (not_lt.mpr (hend.trans (le_trans ?_ hreached)))
    exact zpow_le_zpow_right₀ one_le_two (by omega)

/-- The whole numbers without a nearest finite double. -/
theorem ofInt?_eq_none_iff {n : ℤ} : ofInt? n = none ↔ overflow ≤ n.natAbs := by
  have hfinite := @isFinite_ofRatio n.natAbs 1 one_ne_zero (decide (n < 0))
  rw [Nat.cast_one, div_one, Nat.cast_lt] at hfinite
  rw [ofInt?, ← not_lt, ← hfinite]
  simp

end Binary64

end SparseWeights.Decimal
