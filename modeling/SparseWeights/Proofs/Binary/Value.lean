import SparseWeights.Proofs.Comparison
import SparseWeights.Proofs.Decimal.Range

/-!
Doubles as rational numbers. A finite double has a mantissa of 53 bits, unless its exponent
is the least one, and so the order by exponents and mantissas is the order of the numbers
that doubles stand for. Packing keeps such a number if it is not beyond the range of the
exponent, and makes it infinite otherwise.
-/

namespace SparseWeights.Binary

open Float.Model Float.Model.UnpackedFloat

/-- The number that a finite double stands for. -/
def value : UnpackedFloat → ℚ
  | .finite s m e _ => s.apply m * 2 ^ e
  | .zero _ | .infinity _ | .notANumber => 0

/-- Zero, or a mantissa that takes all of its bits unless the exponent is the least one. There
is no largest exponent. -/
def Canonical : UnpackedFloat → Prop
  | .finite _ m e _ => m < 2 ^ 53 ∧ -1074 ≤ e ∧ (2 ^ 52 ≤ m ∨ e = -1074)
  | .zero _ => True
  | .infinity _ | .notANumber => False

/-- Whether the exponent is in the range of doubles. -/
def Fits : UnpackedFloat → Prop
  | .finite _ _ e _ => e ≤ 971
  | .zero _ => True
  | .infinity _ | .notANumber => False

theorem zpow_two_pos (e : ℤ) : (0 : ℚ) < 2 ^ e := by positivity

/-- Among positive numbers the larger exponent wins, and among equal ones the larger mantissa. -/
theorem magnitude_lt {m m' : ℕ} {e e' : ℤ} (hm : m < 2 ^ 53) (he : -1074 ≤ e)
    (hnormal : 2 ^ 52 ≤ m' ∨ e' = -1074) (hlt : e < e' ∨ e = e' ∧ m < m') :
    (m : ℚ) * 2 ^ e < m' * 2 ^ e' := by
  rcases hlt with hlt | ⟨rfl, hlt⟩
  · have hfull : 2 ^ 52 ≤ m' := hnormal.resolve_right (by omega)
    calc
      (m : ℚ) * 2 ^ e < 2 ^ 53 * 2 ^ e := by
          gcongr
          exact_mod_cast hm
      _ = 2 ^ 52 * 2 ^ (e + 1) := by
          rw [zpow_add_one₀ two_ne_zero]
          ring
      _ ≤ m' * 2 ^ e' := by
          have hpower : (2 : ℚ) ^ (e + 1) ≤ 2 ^ e' := zpow_le_zpow_right₀ one_le_two hlt
          have hmantissa : (2 : ℚ) ^ 52 ≤ m' := by exact_mod_cast hfull
          gcongr
  · gcongr

/-- The place in the line is the place among the numbers. -/
theorem place_lt {a b : UnpackedFloat} (ha : Canonical a) (hb : Canonical b) {x y}
    (hx : place? a = some x) (hy : place? b = some y) (hlt : x < y) : value a < value b := by
  have hpos {m : ℕ} {e : ℤ} (hm : 0 < m) : (0 : ℚ) < m * 2 ^ e :=
    mul_pos (by exact_mod_cast hm) (zpow_two_pos e)
  rcases a with (_ | _) | _ | _ | ⟨_ | _, m, e, hm⟩ <;>
    rcases b with (_ | _) | _ | _ | ⟨_ | _, m', e', hm'⟩ <;>
    first
    | exact absurd ha id
    | exact absurd hb id
    | obtain rfl := Option.some.inj hx
      obtain rfl := Option.some.inj hy
      simp only [Prod.Lex.toLex_lt_toLex] at hlt
      simp only [value, Sign.apply]
      push_cast
  · omega
  · omega
  · exact hpos hm'
  · simpa using hpos hm
  · simpa using magnitude_lt hb.1 hb.2.1 ha.2.2 (by omega)
  · rw [neg_mul]
    exact (neg_neg_of_pos (hpos hm)).trans (hpos hm')
  · omega
  · omega
  · exact magnitude_lt ha.1 ha.2.1 hb.2.2 (by omega)

theorem value_eq_of_place {a b : UnpackedFloat} (ha : Canonical a) (hb : Canonical b)
    (hplace : place? a = place? b) : value a = value b := by
  rcases a with (_ | _) | _ | _ | ⟨_ | _, m, e, hm⟩ <;>
    rcases b with (_ | _) | _ | _ | ⟨_ | _, m', e', hm'⟩ <;>
    first
    | exact absurd ha id
    | exact absurd hb id
    | simp_all [place?, value]

/-- A double with a number has a place. -/
theorem exists_place {a : UnpackedFloat} (ha : Canonical a) : ∃ x, place? a = some x := by
  rcases a with (_ | _) | _ | _ | ⟨_ | _, m, e, hm⟩ <;>
    first
    | exact absurd ha id
    | exact ⟨_, rfl⟩

/-- Apart from the two zeros, a number is that of one double only. -/
theorem eq_of_value_eq {a b : UnpackedFloat} (ha : Canonical a) (hb : Canonical b)
    (heq : value a = value b) (hne : value a ≠ 0) : a = b := by
  obtain ⟨u, hu⟩ := exists_place ha
  obtain ⟨v, hv⟩ := exists_place hb
  have hplace : u = v := by
    rcases lt_trichotomy u v with hlt | h | hlt
    · exact absurd heq (place_lt ha hb hu hv hlt).ne
    · exact h
    · exact absurd heq (place_lt hb ha hv hu hlt).ne'
  rcases a with _ | _ | _ | ⟨_ | _, m, e, hm⟩ <;>
    rcases b with _ | _ | _ | ⟨_ | _, m', e', hm'⟩ <;>
    first
    | exact absurd ha id
    | exact absurd hb id
    | exact absurd rfl hne
    | exact absurd heq hne
    | have hsame := (Option.some.inj hu).trans (hplace.trans (Option.some.inj hv).symm)
      simp only [toLex_inj, Prod.mk.injEq, neg_inj, Nat.cast_inj] at hsame
      first
      | exact absurd hsame.1 (by decide)
      | obtain ⟨_, rfl, rfl⟩ := hsame
        rfl

theorem le_iff_value {a b : UnpackedFloat} (ha : Canonical a) (hb : Canonical b) :
    a.le b = true ↔ value a ≤ value b := by
  obtain ⟨x, hx⟩ := exists_place ha
  obtain ⟨y, hy⟩ := exists_place hb
  have hle : a.le b = true ↔ x ≤ y := by
    rw [le_iff_place, hx, hy]
    simp
  rw [hle]
  constructor
  · intro h
    rcases h.eq_or_lt with rfl | hlt
    · exact (value_eq_of_place ha hb (hx.trans hy.symm)).le
    · exact (place_lt ha hb hx hy hlt).le
  · intro h
    by_contra hlt
    exact h.not_gt (place_lt hb ha hy hx (not_le.mp hlt))

theorem lt_iff_value {a b : UnpackedFloat} (ha : Canonical a) (hb : Canonical b) :
    a.lt b = true ↔ value a < value b := by
  obtain ⟨x, hx⟩ := exists_place ha
  obtain ⟨y, hy⟩ := exists_place hb
  have hlt : a.lt b = true ↔ ¬b.le a = true := by
    rw [lt_iff_place, le_iff_place, hx, hy]
    simp
  rw [hlt, le_iff_value hb ha, not_le]

section Packing

variable {s : Sign} {m : ℕ} {e : ℤ}

theorem unpackSign_packComponents (s : Sign) (field : BitVec 11) (fraction : BitVec 52) :
    unpackSign (packComponents Format.binary64 s field fraction) = s.toBitVec := by
  have hbit : (s.toBitVec ++ field ++ fraction).getLsbD 63 = s.toBitVec.getLsbD 0 := by
    rw [BitVec.getLsbD_append, if_neg (by decide), BitVec.getLsbD_append, if_neg (by decide)]
  refine BitVec.eq_of_getLsbD_eq fun i hi => ?_
  obtain rfl : i = 0 := Nat.lt_one_iff.mp hi
  rw [← hbit, unpackSign, BitVec.getLsbD_cast, BitVec.getLsbD_extractLsb]
  rfl

theorem ofBitVec_toBitVec (s : Sign) : Sign.ofBitVec s.toBitVec = s := by
  cases s <;> rfl

/-- The leading bit of a full mantissa is not stored. -/
theorem leadingBit_append (fraction : BitVec 52) :
    (1#1 ++ fraction).toNat = 2 ^ 52 + fraction.toNat := by
  rw [BitVec.toNat_append, ← Nat.shiftLeft_add_eq_or_of_lt fraction.isLt]
  rfl

theorem unpack_normal (s : Sign) (hm : 0 < m) (hnormal : 2 ^ 52 ≤ m) (hlt : m < 2 ^ 53)
    (he : -1074 ≤ e) (he' : e ≤ 971) :
    UnpackedFloat.unpack Format.binary64 (packComponents Format.binary64 s
      (BitVec.ofNat 11 (e + 1075).toNat) (BitVec.ofNat 52 m)) = .finite s m e hm := by
  have hfield : (BitVec.ofNat 11 (e + 1075).toNat).toNat = (e + 1075).toNat := by
    rw [BitVec.toNat_ofNat, Nat.mod_eq_of_lt (by omega)]
  have hfull : BitVec.ofNat 11 (e + 1075).toNat ≠ -1#11 := by
    rw [Ne, ← BitVec.toNat_inj, hfield]
    change ¬_ = 2047
    omega
  have hzero : BitVec.ofNat 11 (e + 1075).toNat ≠ 0#11 := by
    rw [Ne, ← BitVec.toNat_inj, hfield]
    change ¬_ = 0
    omega
  have hmantissa : (1#1 ++ BitVec.ofNat 52 m).toNat = m := by
    rw [leadingBit_append, BitVec.toNat_ofNat]
    omega
  have hbias : (e + 1075).toNat - ((Format.binary64.exponentBias : ℤ) + 52) = e := by
    change _ - (1023 + 52 : ℤ) = e
    omega
  simp only [UnpackedFloat.unpack, unpackExponent_packComponents, unpackMantissa_packComponents,
    unpackSign_packComponents, ofBitVec_toBitVec]
  rw [if_neg hfull, if_neg hzero]
  simp only [hfield, hmantissa]
  congr 1

theorem unpack_subnormal (s : Sign) (hm : 0 < m) (hsmall : m < 2 ^ 52) :
    UnpackedFloat.unpack Format.binary64 (packComponents Format.binary64 s 0#11
      (BitVec.ofNat 52 m)) = .finite s m (-1074) hm := by
  have hmantissa : (BitVec.ofNat 52 m).toNat = m := by
    rw [BitVec.toNat_ofNat, Nat.mod_eq_of_lt hsmall]
  have hzero : BitVec.ofNat 52 m ≠ 0#52 := by
    rw [Ne, ← BitVec.toNat_inj, hmantissa]
    exact hm.ne'
  simp only [UnpackedFloat.unpack, unpackExponent_packComponents, unpackMantissa_packComponents,
    unpackSign_packComponents, ofBitVec_toBitVec]
  rw [if_neg (by decide), if_pos trivial, dif_neg hzero]
  simp only [hmantissa]
  rfl

theorem pack_finite (hm : 0 < m) :
    UnpackedFloat.pack Format.binary64 (.finite s m e hm) =
      if 2 ^ 11 ≤ (e + 1075).toNat + 1 then packedInfinity Format.binary64 s
      else if m.log2 + 1 = 53 then packComponents Format.binary64 s
        (BitVec.ofNat 11 (e + 1075).toNat) (BitVec.ofNat 52 m)
      else packComponents Format.binary64 s 0#11 (BitVec.ofNat 52 m) := by
  have hbias : e + (1023 : ℕ) + (52 : ℕ) = e + 1075 := by omega
  rw [← hbias]
  rfl

/-- Packing keeps what is in the range. -/
theorem unpack_pack {a : UnpackedFloat} (ha : Canonical a) (hfits : Fits a) :
    (Float.Model.pack a).unpack = a := by
  rcases a with _ | _ | s | ⟨s, m, e, hm⟩
  · exact absurd ha id
  · exact absurd ha id
  · cases s <;> rfl
  · obtain ⟨hlt, he, hnormal⟩ := ha
    change e ≤ 971 at hfits
    change UnpackedFloat.unpack _ (UnpackedFloat.pack Format.binary64 _) = _
    rw [pack_finite, if_neg (by omega)]
    rcases lt_or_ge m (2 ^ 52) with hsmall | hfull
    · obtain rfl := hnormal.resolve_left (by omega)
      have hlog := (Nat.log2_lt hm.ne').mpr hsmall
      rw [if_neg (by omega)]
      exact unpack_subnormal s hm hsmall
    · have hlog := (Nat.log2_eq_iff hm.ne').mpr ⟨hfull, hlt⟩
      rw [if_pos (by omega)]
      exact unpack_normal s hm hfull hlt he hfits

/-- Packing makes infinite what is beyond the range. -/
theorem unpack_pack_infinity (hm : 0 < m) (hover : 971 < e) :
    (Float.Model.pack (.finite s m e hm)).unpack = .infinity s := by
  change UnpackedFloat.unpack _ (UnpackedFloat.pack Format.binary64 _) = _
  rw [pack_finite, if_pos (by omega)]
  cases s <;> rfl

/-- Every finite double has a number, and its exponent is in the range. -/
theorem unpack_canonical {v : Float.Model} (h : v.unpack.isFinite = true) :
    Canonical v.unpack ∧ Fits v.unpack := by
  change (UnpackedFloat.unpack Format.binary64 v.toBits.toBitVec).isFinite = true at h
  change Canonical (UnpackedFloat.unpack Format.binary64 v.toBits.toBitVec) ∧
    Fits (UnpackedFloat.unpack Format.binary64 v.toBits.toBitVec)
  generalize v.toBits.toBitVec = word at h ⊢
  rw [Decimal.Binary64.isFinite_unpack] at h
  have hfraction : (@unpackMantissa Format.binary64 word).toNat < 2 ^ 52 := BitVec.isLt _
  have hfield : (@unpackExponent Format.binary64 word).toNat < 2 ^ 11 := BitVec.isLt _
  have hlast : (@unpackExponent Format.binary64 word).toNat ≠ 2047 := fun heq =>
    h (BitVec.eq_of_toNat_eq heq)
  have hbias : (Format.binary64.exponentBias : ℤ) + Format.binary64.mantissaBitsWithoutImplicit =
      1075 := rfl
  rw [UnpackedFloat.unpack, if_neg h]
  simp only [hbias]
  split
  next hzero =>
    rw [hzero]
    split
    · exact ⟨trivial, trivial⟩
    · exact ⟨⟨hfraction.trans (by decide), by decide, .inr rfl⟩,
        (by decide : (-1074 : ℤ) ≤ 971)⟩
  next hzero =>
    have hpos : (@unpackExponent Format.binary64 word).toNat ≠ 0 := fun heq =>
      hzero (BitVec.eq_of_toNat_eq heq)
    have hmantissa := leadingBit_append (@unpackMantissa Format.binary64 word)
    refine ⟨⟨?_, by omega, .inl ?_⟩, ?_⟩
    · exact hmantissa.trans_lt (by omega)
    · exact hmantissa.ge.trans' (by omega)
    · change _ - (1075 : ℤ) ≤ 971
      omega

end Packing

/-- The number that a finite double stands for. -/
def number (x : Float) : ℚ := value x.toModel.unpack

variable {x y : Float}

theorem canonical_of_isFinite (hx : x.isFinite = true) :
    Canonical x.toModel.unpack ∧ Fits x.toModel.unpack :=
  unpack_canonical hx

theorem le_iff_number (hx : x.isFinite = true) (hy : y.isFinite = true) :
    x ≤ y ↔ number x ≤ number y := by
  rw [le_iff, le_iff_value (canonical_of_isFinite hx).1 (canonical_of_isFinite hy).1]
  rfl

theorem lt_iff_number (hx : x.isFinite = true) (hy : y.isFinite = true) :
    x < y ↔ number x < number y := by
  rw [lt_iff, lt_iff_value (canonical_of_isFinite hx).1 (canonical_of_isFinite hy).1]
  rfl

end SparseWeights.Binary
