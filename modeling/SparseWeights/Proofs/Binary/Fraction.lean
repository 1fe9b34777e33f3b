import SparseWeights.Data.Number
import SparseWeights.Proofs.Binary.Special
import SparseWeights.Proofs.Decimal.Shortest

/-!
Doubles as they are read from their bits. The fraction made from the fields of a finite
double is the number it stands for. So the comparison of values, which is one of fractions,
agrees with that of doubles, and the whole part of a positive double is at most that double.
-/

namespace SparseWeights

namespace Binary

open Float.Model Float.Model.UnpackedFloat Decimal.Binary64

section Fields

variable (x : Float)

theorem toNat_unpackMantissa :
    (@unpackMantissa Format.binary64 x.toBits.toBitVec).toNat = fraction x := by
  rw [unpackMantissa, BitVec.toNat_cast, BitVec.extractLsb_toNat, Nat.shiftRight_zero]
  rfl

theorem toNat_unpackSign :
    (@unpackSign Format.binary64 x.toBits.toBitVec).toNat = x.toBits.toNat / 2 ^ 63 % 2 := by
  rw [unpackSign, BitVec.toNat_cast, BitVec.extractLsb_toNat, Nat.shiftRight_eq_div_pow]
  rfl

theorem apply_unpackSign (m : ℤ) :
    (Sign.ofBitVec (@unpackSign Format.binary64 x.toBits.toBitVec)).apply m =
      if (ofFloat x).negative then -m else m := by
  have hword : x.toBits.toNat < 2 ^ 64 := x.toBits.toNat_lt
  have hbit := toNat_unpackSign x
  rw [negative_eq]
  by_cases h : x.toBits.toNat / 2 ^ 63 = 1
  · have hone : @unpackSign Format.binary64 x.toBits.toBitVec = 1#1 :=
      BitVec.eq_of_toNat_eq (by rw [hbit, h]; rfl)
    rw [hone, decide_eq_true h]
    rfl
  · have hzero : @unpackSign Format.binary64 x.toBits.toBitVec = 0#1 :=
      BitVec.eq_of_toNat_eq (by rw [hbit]; change _ = 0; omega)
    rw [hzero, decide_eq_false h]
    rfl

end Fields

variable {x : Float}

/-- The number of a finite double, from its sign, its mantissa and its exponent. -/
theorem number_eq_magnitude (hx : x.isFinite = true) :
    number x = (if (ofFloat x).negative then -1 else 1) * (ofFloat x).magnitude := by
  have hexponent : (@unpackExponent Format.binary64 x.toBits.toBitVec).toNat = biased x :=
    toNat_unpackExponent x.toBits
  have hmantissa := toNat_unpackMantissa x
  have hfull : @unpackExponent Format.binary64 x.toBits.toBitVec ≠ -1#11 :=
    (Decimal.Binary64.isFinite_unpack _).mp hx
  have hsign := apply_unpackSign x
  have hbias : (Format.binary64.exponentBias : ℤ) + Format.binary64.mantissaBitsWithoutImplicit =
      1075 := rfl
  have happly (m : ℕ) (e : ℤ) (hm : 0 < m) :
      value (.finite (Sign.ofBitVec (@unpackSign Format.binary64 x.toBits.toBitVec)) m e hm) =
        (if (ofFloat x).negative then -1 else 1) * (m * 2 ^ e) := by
    rw [value, hsign]
    split <;> push_cast <;> ring
  change value (UnpackedFloat.unpack Format.binary64 x.toBits.toBitVec) = _
  rw [UnpackedFloat.unpack, if_neg hfull, magnitude]
  simp only [hbias]
  by_cases hzero : biased x = 0
  · have hfield : @unpackExponent Format.binary64 x.toBits.toBitVec = 0#11 :=
      BitVec.eq_of_toNat_eq (by rw [hexponent, hzero]; rfl)
    obtain ⟨hm, he⟩ := ofFloat_of_biased_eq hzero
    rw [if_pos hfield, hm, he]
    split
    next hnone =>
      have hfraction : fraction x = 0 := by
        rw [← hmantissa, hnone]
        rfl
      rw [hfraction]
      simp [value]
    next hsome =>
      rw [happly, hmantissa, hexponent, hzero]
      rfl
  · have hfield : ¬@unpackExponent Format.binary64 x.toBits.toBitVec = 0#11 := fun h =>
      hzero (by rw [← hexponent, h]; rfl)
    obtain ⟨hm, he⟩ := ofFloat_of_biased_ne hzero
    rw [if_neg hfield, happly, leadingBit_append, hmantissa, hexponent, hm, he, add_comm]

theorem number_eq_div (hx : x.isFinite = true) :
    number x = (Decimal.signed (ofFloat x).negative (ofFloat x).num : ℤ) / (ofFloat x).den := by
  rw [number_eq_magnitude hx, ← num_div_den, Decimal.signed]
  split <;> push_cast <;> ring

theorem toBits_ofBits {word : UInt64} (h : (Float.ofBits word).isFinite = true) :
    (Float.ofBits word).toBits = word := by
  refine UInt64.toBitVec_inj.mp ?_
  change UnpackedFloat.pack Format.binary64
    (UnpackedFloat.unpack Format.binary64 word.toBitVec) = word.toBitVec
  rw [UnpackedFloat.pack_unpack]
  split
  next hnan =>
    rw [isFinite_ofBits, Ne, ← unpackExponent_eq_iff] at h
    exact absurd (of_decide_eq_true hnan).1 h
  next => rfl

/-- A double without the sign bit is not below zero. -/
theorem number_ofBits_nonneg {word : UInt64} (hsign : word.toNat < 2 ^ 63)
    (h : (Float.ofBits word).isFinite = true) : 0 ≤ number (Float.ofBits word) := by
  have hpositive : (ofFloat (Float.ofBits word)).negative = false := by
    rw [negative_eq, toBits_ofBits h, decide_eq_false_iff_not]
    omega
  rw [number_eq_magnitude h, hpositive, magnitude]
  simp only [Bool.false_eq_true, if_false, one_mul]
  positivity

theorem number_pack_nonneg {m : ℕ} (hm : m ≤ 2 ^ 53) {e : ℤ}
    (h : (pack false m e).isFinite = true) : 0 ≤ number (pack false m e) := by
  obtain ⟨field, fraction, hfield, hfraction, -, heq⟩ := exists_pack_eq hm false e
  rw [heq] at h ⊢
  refine number_ofBits_nonneg ?_ h
  rw [UInt64.toNat_ofNat', if_neg Bool.false_ne_true]
  omega

theorem ofInt?_nonneg {n : ℤ} (hn : 0 ≤ n) (h : ofInt? n = some x) :
    x.isFinite = true ∧ 0 ≤ x := by
  obtain ⟨m, e, hm, heq⟩ : ∃ m e, m ≤ 2 ^ 53 ∧ ofRatio false n.natAbs 1 = pack false m e := by
    rcases eq_or_ne n.natAbs 0 with hzero | hnum
    · exact ⟨0, -1074, by decide, by rw [ofRatio, if_pos hzero]⟩
    · exact ⟨_, _, units_le one_ne_zero (div_zpow_le_end hnum one_ne_zero rfl),
        ofRatio_eq_pack hnum false rfl⟩
  rw [ofInt?, decide_eq_false hn.not_gt, heq] at h
  simp only [Option.ite_none_right_eq_some, Option.some.injEq] at h
  obtain ⟨hfinite, rfl⟩ := h
  exact ⟨hfinite, (nonneg_iff hfinite).mpr (number_pack_nonneg hm hfinite)⟩

end Binary

end SparseWeights
