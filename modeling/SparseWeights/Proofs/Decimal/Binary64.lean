import Mathlib
import SparseWeights.Decimal.Binary64

/-!
Which fractions round to a double. Around the magnitude of a double lies the
interval up to half the distance to each of its neighbours, and every fraction
in it reads as that double. Below the first double of a binade the neighbour is
only half as far as above.
-/

namespace SparseWeights.Decimal

theorem pow2_eq (n : ℕ) : pow2 n = 2 ^ n := rfl

theorem pow10_eq (n : ℕ) : pow10 n = 10 ^ n := rfl

/-- A power as a quotient of powers that are not negative. -/
theorem zpow_eq_div (a : ℚ) (z : ℤ) : a ^ z = a ^ z.toNat / a ^ (-z).toNat := by
  rcases le_total 0 z with hz | hz
  · lift z to ℕ using hz
    simp
  · obtain ⟨n, rfl⟩ := Int.exists_eq_neg_ofNat hz
    simp [zpow_neg]

section Scaling

variable {a den : ℕ}

/-- A fraction over a power, by the power of which either side takes the part that is whole. -/
theorem scaled_div (num den a : ℕ) (z : ℤ) :
    ((num * a ^ (-z).toNat : ℕ) : ℚ) / (den * a ^ z.toNat : ℕ) = num / den / (a : ℚ) ^ z := by
  rw [zpow_eq_div]
  push_cast
  rw [div_div_eq_mul_div, div_mul_eq_mul_div, div_div]

theorem scaled_le_iff (num : ℕ) (ha : 0 < a) (hden : 0 < den) (z : ℤ) :
    den * a ^ z.toNat ≤ num * a ^ (-z).toNat ↔ (a : ℚ) ^ z ≤ num / den := by
  have hdenQ : (0 : ℚ) < den := by exact_mod_cast hden
  have haQ : (0 : ℚ) < a := by exact_mod_cast ha
  rw [zpow_eq_div, div_le_div_iff₀ (by positivity) hdenQ, ← Nat.cast_le (α := ℚ)]
  push_cast
  rw [mul_comm (den : ℚ)]

end Scaling

/-- A whole number to which a fraction is nearest is what the fraction rounds to, unless it is
one of two and odd. -/
theorem roundHalfEven_of_nearest {num den m : ℕ} (hden : 0 < den)
    (hbelow : 2 * m * den ≤ 2 * num + den) (habove : 2 * num ≤ 2 * m * den + den)
    (heven : 2 * m * den = 2 * num + den ∨ 2 * num = 2 * m * den + den → m % 2 = 0) :
    roundHalfEven num den = m := by
  have hsplit := Nat.div_add_mod num den
  have hrest := Nat.mod_lt num hden
  simp only [roundHalfEven]
  generalize num / den = quotient at hsplit ⊢
  generalize num % den = rest at hsplit hrest ⊢
  have hle : quotient ≤ m := by
    by_contra! h
    have := Nat.mul_le_mul_left den (Nat.succ_le_of_lt h)
    nlinarith
  have hge : m ≤ quotient + 1 := by
    by_contra! h
    have := Nat.mul_le_mul_left den (Nat.succ_le_of_lt h)
    nlinarith
  obtain rfl | rfl : m = quotient ∨ m = quotient + 1 := by omega
  · have hproduct : 2 * m * den = 2 * (den * m) := by ring
    rw [if_neg]
    omega
  · have hproduct : 2 * (quotient + 1) * den = 2 * (den * quotient) + 2 * den := by ring
    rw [if_pos]
    omega

theorem roundHalfEven_eq {num den m : ℕ} (hden : 0 < den) (hlow : (m : ℚ) - 1 / 2 ≤ num / den)
    (hhigh : (num : ℚ) / den ≤ m + 1 / 2)
    (htie : (num : ℚ) / den = m - 1 / 2 ∨ (num : ℚ) / den = m + 1 / 2 → m % 2 = 0) :
    roundHalfEven num den = m := by
  have hdenQ : (0 : ℚ) < den := by exact_mod_cast hden
  apply roundHalfEven_of_nearest hden
  · have h := (le_div_iff₀ hdenQ).mp hlow
    have : (2 : ℚ) * m * den ≤ 2 * num + den := by linarith
    exact_mod_cast this
  · have h := (div_le_iff₀ hdenQ).mp hhigh
    have : (2 : ℚ) * num ≤ 2 * m * den + den := by linarith
    exact_mod_cast this
  · intro h
    apply htie
    rw [div_eq_iff hdenQ.ne', div_eq_iff hdenQ.ne']
    rcases h with h | h
    · have hQ : (2 : ℚ) * m * den = 2 * num + den := by exact_mod_cast h
      left
      linarith
    · have hQ : (2 : ℚ) * num = 2 * m * den + den := by exact_mod_cast h
      right
      linarith

theorem roundHalfEven_error (num : ℕ) {den : ℕ} (hden : 0 < den) :
    |(roundHalfEven num den : ℚ) - num / den| ≤ 1 / 2 := by
  have hdenQ : (0 : ℚ) < den := by exact_mod_cast hden
  have hsplit : (num : ℚ) = den * (num / den : ℕ) + (num % den : ℕ) := by
    exact_mod_cast (Nat.div_add_mod num den).symm
  have hrest : ((num % den : ℕ) : ℚ) < den := by exact_mod_cast Nat.mod_lt num hden
  have hvalue : (num : ℚ) / den = (num / den : ℕ) + (num % den : ℕ) / den := by
    rw [div_eq_iff hdenQ.ne', add_mul, div_mul_cancel₀ _ hdenQ.ne', mul_comm, ← hsplit]
  rw [hvalue]
  simp only [roundHalfEven]
  split
  next hup =>
    have hhalf : (den : ℚ) ≤ 2 * (num % den : ℕ) := by
      have : den ≤ 2 * (num % den) := by omega
      exact_mod_cast this
    have h : (1 : ℚ) / 2 ≤ (num % den : ℕ) / den := by
      rw [le_div_iff₀ hdenQ]
      linarith
    have h' : ((num % den : ℕ) : ℚ) / den ≤ 1 := by
      rw [div_le_one hdenQ]
      exact hrest.le
    push_cast
    rw [abs_le]
    constructor <;> linarith
  next hdown =>
    have hhalf : (2 : ℚ) * (num % den : ℕ) ≤ den := by
      have : 2 * (num % den) ≤ den := by omega
      exact_mod_cast this
    have h : ((num % den : ℕ) : ℚ) / den ≤ 1 / 2 := by
      rw [div_le_iff₀ hdenQ]
      linarith
    have h' : (0 : ℚ) ≤ (num % den : ℕ) / den := by positivity
    rw [abs_le]
    constructor <;> linarith

section Leading

variable {a num den : ℕ} (ha : 1 < a)

include ha

/-- The place of a fraction is known up to one from the places of its parts. -/
theorem zpow_sub_bounds {m n : ℕ} (hnumLow : a ^ m ≤ num) (hnumHigh : num < a ^ (m + 1))
    (hdenLow : a ^ n ≤ den) (hdenHigh : den < a ^ (n + 1)) :
    (a : ℚ) ^ ((m : ℤ) - n - 1) ≤ num / den ∧ (num : ℚ) / den < a ^ ((m : ℤ) - n + 1) := by
  have haQ : (0 : ℚ) < a := by exact_mod_cast Nat.zero_lt_of_lt ha
  have hdenQ : (0 : ℚ) < den := by
    exact_mod_cast lt_of_lt_of_le (Nat.pow_pos (Nat.zero_lt_of_lt ha)) hdenLow
  have hsplit : (a : ℚ) ^ ((m : ℤ) - n) = a ^ m / a ^ n := by
    rw [zpow_sub₀ haQ.ne', zpow_natCast, zpow_natCast]
  constructor
  · rw [zpow_sub_one₀ haQ.ne', hsplit, ← div_eq_mul_inv, div_div, ← pow_succ]
    exact div_le_div₀ (by positivity) (by exact_mod_cast hnumLow) hdenQ
      (by exact_mod_cast hdenHigh.le)
  · rw [zpow_add_one₀ haQ.ne', hsplit, div_mul_eq_mul_div, ← pow_succ]
    exact div_lt_div₀ (by exact_mod_cast hnumHigh) (by exact_mod_cast hdenLow) (by positivity)
      (by positivity)

/-- It is the larger guess if the fraction reaches that power. -/
theorem leading_spec (hden : 0 < den) {guess : ℤ} (hbelow : (a : ℚ) ^ (guess - 1) ≤ num / den)
    (habove : (num : ℚ) / den < a ^ (guess + 1)) {e : ℤ}
    (he : e = if den * a ^ guess.toNat ≤ num * a ^ (-guess).toNat then guess else guess - 1) :
    (a : ℚ) ^ e ≤ num / den ∧ (num : ℚ) / den < a ^ (e + 1) := by
  simp only [scaled_le_iff num (Nat.zero_lt_of_lt ha) hden] at he
  split at he
  next hreached => exact he ▸ ⟨hreached, habove⟩
  next hreached =>
    rw [he, sub_add_cancel]
    exact ⟨hbelow, lt_of_not_ge hreached⟩

end Leading

/-- The exponent of the power of two that is the largest up to a fraction. -/
def topExponent (num den : ℕ) : ℤ :=
  let guess : ℤ := (num.log2 : ℤ) - den.log2
  if den * pow2 guess.toNat ≤ num * pow2 (-guess).toNat then guess else guess - 1

theorem topExponent_spec {num den : ℕ} (hnum : num ≠ 0) (hden : den ≠ 0) :
    (2 : ℚ) ^ topExponent num den ≤ num / den ∧
      (num : ℚ) / den < 2 ^ (topExponent num den + 1) := by
  obtain ⟨hbelow, habove⟩ := zpow_sub_bounds one_lt_two (Nat.log2_self_le hnum) Nat.lt_log2_self
    (Nat.log2_self_le hden) Nat.lt_log2_self
  exact leading_spec one_lt_two (Nat.pos_of_ne_zero hden) hbelow habove (e := topExponent num den)
    rfl

namespace Binary64

/-- The parts that finite doubles have: the mantissa takes all of its bits unless the exponent
is the least one. -/
structure Canonical (b : Binary64) : Prop where
  mantissa_lt : b.mantissa < 2 ^ 53
  exponent_ge : -1074 ≤ b.exponent
  exponent_le : b.exponent ≤ 971
  normal : 2 ^ 52 ≤ b.mantissa ∨ b.exponent = -1074

def magnitude (b : Binary64) : ℚ := b.mantissa * 2 ^ b.exponent

/-- How many quarters of the last place lie between a double and the end of its interval below. -/
def quartersBelow (b : Binary64) : ℕ := if b.mantissa = 2 ^ 52 ∧ -1074 < b.exponent then 1 else 2

/-- The fractions that round to a positive double. -/
structure Covers (b : Binary64) (q : ℚ) : Prop where
  low : (b.mantissa - b.quartersBelow / 4) * 2 ^ b.exponent ≤ q
  high : q ≤ (b.mantissa + 1 / 2) * 2 ^ b.exponent
  tie : q = (b.mantissa - b.quartersBelow / 4) * 2 ^ b.exponent ∨
    q = (b.mantissa + 1 / 2) * 2 ^ b.exponent → b.mantissa % 2 = 0

variable {b : Binary64} {num den : ℕ}

/-- A fraction as a whole number of units, rounded. -/
def units (num den : ℕ) (exponent : ℤ) : ℕ :=
  roundHalfEven (num * pow2 (-exponent).toNat) (den * pow2 exponent.toNat)

theorem grid_pos (hden : den ≠ 0) (exponent : ℤ) : 0 < den * pow2 exponent.toNat :=
  Nat.mul_pos (Nat.pos_of_ne_zero hden) (Nat.pow_pos two_pos)

theorem grid_eq (num den : ℕ) (exponent : ℤ) :
    ((num * pow2 (-exponent).toNat : ℕ) : ℚ) / (den * pow2 exponent.toNat : ℕ) =
      num / den / 2 ^ exponent := by
  exact_mod_cast scaled_div num den 2 exponent

theorem ofRatio_eq_pack (hnum : num ≠ 0) (negative : Bool) {exponent : ℤ}
    (hexponent : max (topExponent num den - 52) (-1074) = exponent) :
    ofRatio negative num den = pack negative (units num den exponent) exponent := by
  rw [ofRatio, if_neg hnum, ← hexponent]
  rfl

theorem quartersBelow_le (b : Binary64) : b.quartersBelow ≤ 2 := by
  rw [quartersBelow]
  split <;> decide

/-- A fraction that is covered is rounded to the mantissa, on the grid of its last place. -/
theorem Covers.units_eq (hcovers : b.Covers (num / den)) (hden : den ≠ 0) :
    units num den b.exponent = b.mantissa := by
  have hunit : (0 : ℚ) < 2 ^ b.exponent := by positivity
  have hquarters : (b.quartersBelow : ℚ) ≤ 2 := by exact_mod_cast b.quartersBelow_le
  apply roundHalfEven_eq (grid_pos hden b.exponent)
  · rw [grid_eq, le_div_iff₀ hunit]
    refine (mul_le_mul_of_nonneg_right ?_ hunit.le).trans hcovers.low
    linarith
  · rw [grid_eq, div_le_iff₀ hunit]
    exact hcovers.high
  · rw [grid_eq, div_eq_iff hunit.ne', div_eq_iff hunit.ne']
    rintro (hlow | hhigh)
    · -- A fraction that lies half a place below is the end of the interval.
      have hle := hcovers.low
      rw [hlow, mul_le_mul_iff_left₀ hunit] at hle
      have hhalf : (b.quartersBelow : ℚ) = 2 := by linarith
      apply hcovers.tie
      left
      rw [hlow, hhalf]
      norm_num
    · exact hcovers.tie (.inr hhigh)

/-- The double at the end of a binade is the first one of the next. -/
theorem pack_carry (negative : Bool) (exponent : ℤ) :
    pack negative (2 ^ 53) (exponent - 1) = pack negative (2 ^ 52) exponent := by
  simp [pack, pow2_eq]

theorem zpow_natCast_add (n : ℕ) (e : ℤ) : (2 : ℚ) ^ ((n : ℤ) + e) = 2 ^ n * 2 ^ e := by
  rw [zpow_add₀ two_ne_zero, zpow_natCast]

theorem Covers.lt_zpow (hb : b.Canonical) {q : ℚ} (hcovers : b.Covers q) :
    q < 2 ^ (((53 : ℕ) : ℤ) + b.exponent) := by
  have hmantissa : (b.mantissa : ℚ) + 1 ≤ 2 ^ 53 := by exact_mod_cast hb.mantissa_lt
  rw [zpow_natCast_add]
  refine lt_of_le_of_lt hcovers.high ?_
  gcongr
  linarith

section Under

/-! Only the first double of a binade covers fractions under it. -/

variable {q : ℚ} (hcovers : b.Covers q) (hmore : -1074 < b.exponent)
  (hunder : q < 2 ^ 52 * 2 ^ b.exponent)

include hcovers hmore hunder

theorem Covers.mantissa_eq (hb : b.Canonical) : b.mantissa = 2 ^ 52 := by
  have hunit : (0 : ℚ) < 2 ^ b.exponent := by positivity
  have hquarters : (b.quartersBelow : ℚ) ≤ 2 := by exact_mod_cast b.quartersBelow_le
  have hfull : 2 ^ 52 ≤ b.mantissa := hb.normal.resolve_right hmore.ne'
  by_contra hne
  have hnext : (2 : ℚ) ^ 52 + 1 ≤ b.mantissa := by
    exact_mod_cast lt_of_le_of_ne hfull (Ne.symm hne)
  have hlow := lt_of_le_of_lt hcovers.low hunder
  rw [mul_lt_mul_iff_left₀ hunit] at hlow
  linarith

/-- In the binade below they lie next to its end. -/
theorem Covers.carry (hfirst : b.mantissa = 2 ^ 52) (negative : Bool) :
    (Binary64.mk negative (2 ^ 53) (b.exponent - 1)).Covers q ∧
      2 ^ (((51 : ℕ) : ℤ) + b.exponent) ≤ q := by
  have hquarter : b.quartersBelow = 1 := if_pos ⟨hfirst, hmore⟩
  have hhalf : (2 : ℚ) ^ b.exponent = 2 * 2 ^ (b.exponent - 1) := by
    rw [zpow_sub_one₀ two_ne_zero]
    ring
  have hunit : (0 : ℚ) < 2 ^ (b.exponent - 1) := by positivity
  have hlow := hcovers.low
  rw [hfirst, hquarter, hhalf] at hlow
  rw [hhalf] at hunder
  push_cast at hlow
  refine ⟨⟨?_, ?_, fun _ => by norm_num⟩, ?_⟩
  · have htwo : (Binary64.mk negative (2 ^ 53) (b.exponent - 1)).quartersBelow = 2 := by
      simp [quartersBelow]
    rw [htwo]
    push_cast
    linarith
  · push_cast
    linarith
  · rw [zpow_natCast_add, hhalf]
    linarith

end Under

/-- A fraction that a double covers is read as that double. -/
theorem ofRatio_eq (hb : b.Canonical) (hnum : num ≠ 0) (hden : den ≠ 0)
    (hcovers : b.Covers (num / den)) (negative : Bool) :
    ofRatio negative num den = pack negative b.mantissa b.exponent := by
  obtain ⟨hbelow, habove⟩ := topExponent_spec hnum hden
  have hleast := hb.exponent_ge
  -- Unless the fraction lies below the binade of the double, both have one last place.
  have hsame (hexponent : max (topExponent num den - 52) (-1074) = b.exponent) :
      ofRatio negative num den = pack negative b.mantissa b.exponent := by
    rw [ofRatio_eq_pack hnum negative hexponent, hcovers.units_eq hden]
  by_cases hbinade : (2 : ℚ) ^ (((52 : ℕ) : ℤ) + b.exponent) ≤ num / den
  · have hle := (zpow_lt_zpow_iff_right₀ one_lt_two).mp (lt_of_le_of_lt hbelow (hcovers.lt_zpow hb))
    have hge := (zpow_lt_zpow_iff_right₀ one_lt_two).mp (lt_of_le_of_lt hbinade habove)
    exact hsame (by omega)
  · have hunder := lt_of_not_ge hbinade
    have htop := (zpow_lt_zpow_iff_right₀ one_lt_two).mp (lt_of_le_of_lt hbelow hunder)
    rcases hleast.eq_or_lt with heq | hmore
    · exact hsame (by omega)
    · rw [zpow_natCast_add] at hunder
      have hfirst := hcovers.mantissa_eq hmore hunder hb
      obtain ⟨hcarry, hlower⟩ := hcovers.carry hmore hunder hfirst negative
      have hge := (zpow_lt_zpow_iff_right₀ one_lt_two).mp (lt_of_le_of_lt hlower habove)
      have hexponent : max (topExponent num den - 52) (-1074) = b.exponent - 1 := by omega
      rw [ofRatio_eq_pack hnum negative hexponent, hcarry.units_eq hden, hfirst]
      exact pack_carry negative b.exponent

/-- The exponent field of a double. -/
def biased (x : Float) : ℕ := x.toBits.toNat / 2 ^ 52 % 2 ^ 11

/-- The fraction field of a double. -/
def fraction (x : Float) : ℕ := x.toBits.toNat % 2 ^ 52

theorem negative_eq (x : Float) :
    (ofFloat x).negative = decide (x.toBits.toNat / 2 ^ 63 = 1) := by
  rw [ofFloat]
  split <;> rfl

open Float.Model in
theorem toNat_unpackExponent (word : UInt64) :
    (@UnpackedFloat.unpackExponent Format.binary64 word.toBitVec).toNat =
      word.toNat / 2 ^ 52 % 2 ^ 11 := by
  rw [UnpackedFloat.unpackExponent, BitVec.toNat_cast, BitVec.extractLsb_toNat,
    Nat.shiftRight_eq_div_pow]
  rfl

open Float.Model in
theorem unpackExponent_eq_iff (word : UInt64) :
    @UnpackedFloat.unpackExponent Format.binary64 word.toBitVec = -1#11 ↔
      word.toNat / 2 ^ 52 % 2 ^ 11 = 2047 := by
  rw [← toNat_unpackExponent, ← BitVec.toNat_inj]
  rfl

open Float.Model in
/-- A double whose exponent field is full is NaN or infinite. -/
theorem biased_lt {x : Float} (hnan : x.isNaN = false) (hinf : x.isInf = false) :
    biased x < 2047 := by
  by_contra hfull
  have hfield := Nat.mod_lt (x.toBits.toNat / 2 ^ 52) (show 0 < 2 ^ 11 by decide)
  have hexponent :
      @UnpackedFloat.unpackExponent Format.binary64 x.toBits.toBitVec = -1#11 := by
    rw [biased] at hfull
    exact (unpackExponent_eq_iff x.toBits).mpr (by omega)
  change (UnpackedFloat.unpack Format.binary64 x.toBits.toBitVec).isNaN = false at hnan
  change (UnpackedFloat.unpack Format.binary64 x.toBits.toBitVec).isInf = false at hinf
  rw [UnpackedFloat.unpack, if_pos hexponent] at hnan hinf
  split at hnan
  next hzero =>
    rw [if_pos hzero] at hinf
    cases hinf
  next => cases hnan

theorem toBits_toNat (x : Float) :
    x.toBits.toNat =
      (if (ofFloat x).negative then 2 ^ 63 else 0) + biased x * 2 ^ 52 + fraction x := by
  have hword : x.toBits.toNat < 2 ^ 64 := x.toBits.toNat_lt
  rw [negative_eq, biased, fraction]
  by_cases h : x.toBits.toNat / 2 ^ 63 = 1
  · rw [decide_eq_true h, if_pos rfl]
    omega
  · rw [decide_eq_false h, if_neg Bool.false_ne_true]
    omega

theorem ofFloat_of_biased_eq {x : Float} (h : biased x = 0) :
    (ofFloat x).mantissa = fraction x ∧ (ofFloat x).exponent = -1074 := by
  rw [biased] at h
  simp only [ofFloat, pow2_eq, h, if_true]
  exact ⟨rfl, trivial⟩

theorem ofFloat_of_biased_ne {x : Float} (h : biased x ≠ 0) :
    (ofFloat x).mantissa = fraction x + 2 ^ 52 ∧ (ofFloat x).exponent = biased x - 1075 := by
  rw [biased] at h
  simp only [ofFloat, pow2_eq, h, if_false]
  exact ⟨rfl, rfl⟩

theorem ofFloat_canonical {x : Float} (hnan : x.isNaN = false) (hinf : x.isInf = false) :
    (ofFloat x).Canonical := by
  have hfraction : fraction x < 2 ^ 52 := Nat.mod_lt _ (by decide)
  have hbiased := biased_lt hnan hinf
  by_cases h : biased x = 0
  · obtain ⟨hmantissa, hexponent⟩ := ofFloat_of_biased_eq h
    exact ⟨by omega, by omega, by omega, .inr hexponent⟩
  · obtain ⟨hmantissa, hexponent⟩ := ofFloat_of_biased_ne h
    exact ⟨by omega, by omega, by omega, .inl (by omega)⟩

theorem pack_of_lt {m : ℕ} (hm : m < 2 ^ 52) (negative : Bool) (e : ℤ) :
    pack negative m e = Float.ofBits (UInt64.ofNat (m + if negative then 2 ^ 63 else 0)) := by
  have hcarry : ¬m = pow2 53 := by
    rw [pow2_eq]
    omega
  have hsmall : m < pow2 52 := hm
  simp only [pack, if_neg hcarry, if_pos hsmall]
  rfl

theorem pack_of_le {m : ℕ} (hfull : 2 ^ 52 ≤ m) (hm : m < 2 ^ 53) (negative : Bool) {e : ℤ}
    (he : (e + 1075).toNat < 2047) :
    pack negative m e = Float.ofBits (UInt64.ofNat
      ((e + 1075).toNat * 2 ^ 52 + (m - 2 ^ 52) + if negative then 2 ^ 63 else 0)) := by
  have hcarry : ¬m = pow2 53 := by
    rw [pow2_eq]
    omega
  have hnormal : ¬m < pow2 52 := by
    rw [pow2_eq]
    omega
  have hfinite : ¬2047 ≤ (e + 1075).toNat := by omega
  simp only [pack, if_neg hcarry, if_neg hnormal, if_neg hfinite]
  rfl

theorem pack_of_ge {m : ℕ} (hfull : 2 ^ 52 ≤ m) (hm : m < 2 ^ 53) (negative : Bool) {e : ℤ}
    (he : 2047 ≤ (e + 1075).toNat) :
    pack negative m e =
      Float.ofBits (UInt64.ofNat (2047 * 2 ^ 52 + 0 + if negative then 2 ^ 63 else 0)) := by
  have hcarry : ¬m = pow2 53 := by
    rw [pow2_eq]
    omega
  have hnormal : ¬m < pow2 52 := by
    rw [pow2_eq]
    omega
  simp only [pack, if_neg hcarry, if_neg hnormal, if_pos he]
  rfl

/-- A finite double is put together again from its parts. -/
theorem pack_ofFloat {x : Float} (hnan : x.isNaN = false) (hinf : x.isInf = false) :
    pack (ofFloat x).negative (ofFloat x).mantissa (ofFloat x).exponent = x := by
  have hfraction : fraction x < 2 ^ 52 := Nat.mod_lt _ (by decide)
  have hbiased := biased_lt hnan hinf
  have hbits := toBits_toNat x
  have hword : UInt64.ofNat x.toBits.toNat = x.toBits := UInt64.ofNat_toNat
  conv_rhs => rw [← Float.ofBits_toBits x, ← hword, hbits]
  by_cases h : biased x = 0
  · obtain ⟨hmantissa, hexponent⟩ := ofFloat_of_biased_eq h
    rw [hmantissa, hexponent, h, pack_of_lt hfraction, zero_mul, add_zero, add_comm]
  · obtain ⟨hmantissa, hexponent⟩ := ofFloat_of_biased_ne h
    have hshift : ((biased x : ℤ) - 1075 + 1075).toNat = biased x := by omega
    rw [hmantissa, hexponent, pack_of_le (by omega) (by omega) _ (by omega), hshift,
      Nat.add_sub_cancel, add_comm, add_assoc]

end Binary64

end SparseWeights.Decimal
