import SparseWeights.Proofs.Binary.Rounded

/-!
The operations on doubles round exactly: a sum, a difference, a product or a quotient of
finite doubles is the double nearest to that of the numbers, or infinite beyond the range.
So a bound by a double on the exact result is a bound on the result.
-/

namespace SparseWeights.Binary

open Float.Model Float.Model.UnpackedFloat

section Unpacked

variable {a b : UnpackedFloat}

/-- A mantissa over a lower exponent, with its sign. -/
theorem signed_decreaseExponent (s : Sign) (m : ℕ) {e t : ℤ} (ht : t ≤ e) :
    (s.apply (decreaseExponent m e t).1 : ℚ) * 2 ^ t = s.apply m * 2 ^ e := by
  have hvalue := decreaseExponent_value m e t
  have hexponent : (decreaseExponent m e t).2 = t := by
    rw [decreaseExponent, Int.toNat_of_nonneg (sub_nonneg.mpr ht)]
    omega
  rw [hexponent] at hvalue
  cases s <;> simp only [Sign.apply] <;> push_cast
  · rw [neg_mul, hvalue, neg_mul]
  · exact hvalue

theorem nearest_add (ha : Canonical a) (hb : Canonical b) :
    Nearest (value a + value b) (UnpackedFloat.add Format.binary64 a b) := by
  rcases a with _ | _ | s | ⟨s, m, e, hm⟩
  · exact absurd ha id
  · exact absurd ha id
  · rcases b with _ | _ | s' | ⟨s', m', e', hm'⟩
    · exact absurd hb id
    · exact absurd hb id
    · have hsign : ∃ zeroSign, UnpackedFloat.add Format.binary64 (.zero s) (.zero s') =
          .zero zeroSign := by
        cases s <;> cases s' <;> exact ⟨_, rfl⟩
      obtain ⟨zeroSign, hzero⟩ := hsign
      rw [hzero, show value (.zero s) + value (.zero s') = value (.zero zeroSign) from add_zero 0]
      exact nearest_value trivial
    · rw [show value (.zero s) = 0 from rfl, zero_add]
      exact nearest_value hb
  · rcases b with _ | _ | s' | ⟨s', m', e', hm'⟩
    · exact absurd hb id
    · exact absurd hb id
    · rw [show value (.zero s') = 0 from rfl, add_zero]
      exact nearest_value ha
    · have hsum : value (.finite s m e hm) + value (.finite s' m' e' hm') =
          ((s.apply (decreaseExponent m e (min e e')).1 +
            s'.apply (decreaseExponent m' e' (min e e')).1 : ℤ) : ℚ) * 2 ^ min e e' := by
        rw [Int.cast_add, add_mul, signed_decreaseExponent s m (min_le_left e e'),
          signed_decreaseExponent s' m' (min_le_right e e')]
        rfl
      rw [hsum]
      exact nearest_normalize _ _ .positive

theorem canonical_neg (hb : Canonical b) : Canonical b.neg := by
  rcases b with _ | _ | s | ⟨s, m, e, hm⟩ <;> exact hb

theorem apply_neg (s : Sign) (z : ℤ) : (-s).apply z = -s.apply z := by
  cases s
  · exact (neg_neg z).symm
  · rfl

theorem value_neg (b : UnpackedFloat) : value b.neg = -value b := by
  rcases b with _ | _ | s | ⟨s, m, e, hm⟩
  · rfl
  · rfl
  · rfl
  · rw [UnpackedFloat.neg, value, apply_neg, Int.cast_neg, neg_mul]
    rfl

theorem sub_eq_add (a b : UnpackedFloat) :
    UnpackedFloat.sub Format.binary64 a b = UnpackedFloat.add Format.binary64 a b.neg := by
  rcases a with s | _ | s | ⟨s, m, e, hm⟩ <;> rcases b with s' | _ | s' | ⟨s', m', e', hm'⟩ <;>
    try rfl
  simp only [UnpackedFloat.sub, UnpackedFloat.neg, UnpackedFloat.add, apply_neg, sub_eq_add_neg]

theorem nearest_sub (ha : Canonical a) (hb : Canonical b) :
    Nearest (value a - value b) (UnpackedFloat.sub Format.binary64 a b) := by
  rw [sub_eq_add, sub_eq_add_neg, ← value_neg]
  exact nearest_add ha (canonical_neg hb)

theorem nearest_mul (ha : Canonical a) (hb : Canonical b) :
    Nearest (value a * value b) (UnpackedFloat.mul Format.binary64 a b) := by
  have hzero (s : Sign) {q : ℚ} (hq : q = 0) : Nearest q (.zero s) := by
    rw [hq]
    exact nearest_value (a := .zero s) trivial
  rcases a with _ | _ | s | ⟨s, m, e, hm⟩
  · exact absurd ha id
  · exact absurd ha id
  · rcases b with _ | _ | s' | ⟨s', m', e', hm'⟩
    · exact absurd hb id
    · exact absurd hb id
    · exact hzero _ (zero_mul _)
    · exact hzero _ (zero_mul _)
  · rcases b with _ | _ | s' | ⟨s', m', e', hm'⟩
    · exact absurd hb id
    · exact absurd hb id
    · exact hzero _ (mul_zero _)
    · have hproduct : value (.finite s m e hm) * value (.finite s' m' e' hm') =
          (s * s').apply 1 * ((m * m' : ℕ) * 2 ^ (e + e')) := by
        rw [zpow_add₀ two_ne_zero, value, value]
        cases s <;> cases s' <;> simp only [Sign.apply] <;> push_cast <;> ring
      have htarget : e + e' ≤ max (((m * m').log2 : ℤ) + (e + e') - 52) (-1074) := by
        by_cases hsmall : m < 2 ^ 52 ∧ m' < 2 ^ 52
        · have he := ha.2.2.resolve_left (by omega)
          have he' := hb.2.2.resolve_left (by omega)
          omega
        · have hlarge : 2 ^ 52 ≤ m * m' := by
            rcases not_and_or.mp hsmall with h | h
            · exact (not_lt.mp h).trans (Nat.le_mul_of_pos_right m hm')
            · exact (not_lt.mp h).trans (Nat.le_mul_of_pos_left m' hm)
          have hlog := (Nat.le_log2 (Nat.mul_pos hm hm').ne').mpr hlarge
          omega
      rw [hproduct]
      refine nearest_roundWithAccuracy (by positivity) ?_ htarget
      rw [mul_div_cancel_right₀ _ (zpow_two_pos _).ne']
      exact describes_exact _

/-- The quotient of the mantissas has the bits that are aimed at. -/
theorem divCore_spec {m m' : ℕ} (e e' : ℤ) (hm : 0 < m) (hm' : 0 < m') :
    let core := divCore Format.binary64 m e m' e'
    Describes (ExtendedMantissa.ofMantissaAndAccuracy core.1 core.2.2)
        (m * 2 ^ e / (m' * 2 ^ e') / 2 ^ core.2.1) ∧
      core.2.1 ≤ max ((core.1.log2 : ℤ) + core.2.1 - 52) (-1074) := by
  obtain ⟨t, ht⟩ : ∃ t, min (e - e') (Format.binary64.targetExponent
    (totalExponent m e - totalExponent m' e')) = t := ⟨_, rfl⟩
  obtain ⟨k, hk⟩ := Int.le.dest (ht ▸ min_le_left (e - e') _)
  have hshift : (e - e' - t).toNat = k := by omega
  simp only [divCore, ht, hshift, Nat.shiftLeft_eq]
  constructor
  · convert describes_fraction (m * 2 ^ k) hm' using 1
    have hpower : (2 : ℚ) ^ e = 2 ^ t * 2 ^ k * 2 ^ e' := by
      rw [← zpow_natCast, ← zpow_add₀ two_ne_zero, hk, ← zpow_add₀ two_ne_zero, sub_add_cancel]
    have hunit := (zpow_two_pos t).ne'
    have hunit' := (zpow_two_pos e').ne'
    have hmQ : (m' : ℚ) ≠ 0 := by exact_mod_cast hm'.ne'
    rw [hpower]
    push_cast
    field_simp
  · have htarget : Format.binary64.targetExponent (totalExponent m e - totalExponent m' e') =
        max ((m.log2 : ℤ) + e - (m'.log2 + e') - 53) (-1074) := by
      change max (_ + 1 + e - (_ + 1 + e') - (1 + 52 : ℕ)) (3 - 2 ^ 10 - (1 + 52 : ℕ)) = _
      omega
    rw [htarget] at ht
    rcases le_or_gt t (-1074) with hleast | hmore
    · omega
    · have hbits : m'.log2 + 1 + 52 ≤ m.log2 + k := by omega
      have hquotient : 2 ^ 52 ≤ m * 2 ^ k / m' := by
        rw [Nat.le_div_iff_mul_le hm']
        calc
          2 ^ 52 * m' ≤ 2 ^ 52 * 2 ^ (m'.log2 + 1) :=
            Nat.mul_le_mul_left _ Nat.lt_log2_self.le
          _ = 2 ^ (m'.log2 + 1 + 52) := by rw [← pow_add, add_comm]
          _ ≤ 2 ^ (m.log2 + k) := Nat.pow_le_pow_right two_pos hbits
          _ ≤ m * 2 ^ k := by
            rw [pow_add]
            exact Nat.mul_le_mul_right _ (Nat.log2_self_le hm.ne')
      have hlog := (Nat.le_log2 (Nat.ne_of_gt (Nat.lt_of_lt_of_le (by decide) hquotient))).mpr
        hquotient
      omega

theorem nearest_div (ha : Canonical a) (hb : Canonical b) (hzero : value b ≠ 0) :
    Nearest (value a / value b) (UnpackedFloat.div Format.binary64 a b) := by
  rcases b with _ | _ | s' | ⟨s', m', e', hm'⟩
  · exact absurd hb id
  · exact absurd hb id
  · exact absurd rfl hzero
  · rcases a with _ | _ | s | ⟨s, m, e, hm⟩
    · exact absurd ha id
    · exact absurd ha id
    · rw [show value (.zero s) / _ = value (.zero (s / s')) from zero_div _]
      exact nearest_value trivial
    · obtain ⟨hdescribes, htarget⟩ := divCore_spec e e' hm hm'
      have hquotient : value (.finite s m e hm) / value (.finite s' m' e' hm') =
          (s / s').apply 1 * (m * 2 ^ e / (m' * 2 ^ e')) := by
        have hsign : (s / s').apply 1 = s.apply 1 * s'.apply 1 := by
          cases s <;> cases s' <;> rfl
        rw [value, value, hsign]
        cases s <;> cases s' <;> simp only [Sign.apply] <;> push_cast <;> ring
      rw [hquotient]
      exact nearest_roundWithAccuracy (by positivity) hdescribes htarget

end Unpacked

section Doubles

variable {x y : Float} {q : ℚ}

theorem isRounded_add (hx : x.isFinite = true) (hy : y.isFinite = true) :
    IsRounded (number x + number y) (x + y) :=
  ⟨_, nearest_add (canonical_of_isFinite hx).1 (canonical_of_isFinite hy).1, rfl⟩

theorem isRounded_sub (hx : x.isFinite = true) (hy : y.isFinite = true) :
    IsRounded (number x - number y) (x - y) :=
  ⟨_, nearest_sub (canonical_of_isFinite hx).1 (canonical_of_isFinite hy).1, rfl⟩

theorem isRounded_mul (hx : x.isFinite = true) (hy : y.isFinite = true) :
    IsRounded (number x * number y) (x * y) :=
  ⟨_, nearest_mul (canonical_of_isFinite hx).1 (canonical_of_isFinite hy).1, rfl⟩

theorem isRounded_div (hx : x.isFinite = true) (hy : y.isFinite = true) (hzero : number y ≠ 0) :
    IsRounded (number x / number y) (x / y) :=
  ⟨_, nearest_div (canonical_of_isFinite hx).1 (canonical_of_isFinite hy).1 hzero, rfl⟩

theorem number_zero : number 0 = 0 := rfl

theorem number_one : number 1 = 1 := by
  have hone : (1 : Float).toModel.unpack = .finite .positive (2 ^ 52) (-52) (by decide) := rfl
  rw [number, hone, value, Sign.apply, Nat.cast_pow, Nat.cast_ofNat]
  norm_num

theorem unpack_neg (hx : x.isFinite = true) : (-x).toModel.unpack = x.toModel.unpack.neg := by
  obtain ⟨hcanonical, hfits⟩ := canonical_of_isFinite hx
  refine unpack_pack (canonical_neg hcanonical) ?_
  rcases hu : x.toModel.unpack with _ | _ | s | ⟨s, m, e, hm⟩ <;> rw [hu] at hfits <;> exact hfits

theorem isFinite_neg (hx : x.isFinite = true) : (-x).isFinite = true := by
  change (-x).toModel.unpack.isFinite = true
  change x.toModel.unpack.isFinite = true at hx
  have hunpack := unpack_neg hx
  rw [hunpack]
  rcases hu : x.toModel.unpack with _ | _ | s | ⟨s, m, e, hm⟩ <;> rw [hu] at hx <;> exact hx

theorem number_neg (hx : x.isFinite = true) : number (-x) = -number x := by
  rw [number, unpack_neg hx, value_neg]
  rfl

/-- A whole number of 53 bits is a full mantissa over some exponent. -/
theorem exists_number_eq {n : ℕ} (hn : n < 2 ^ 53) :
    ∃ y : Float, y.isFinite = true ∧ number y = n := by
  rcases Nat.eq_zero_or_pos n with rfl | hpos
  · exact ⟨0, rfl, number_zero⟩
  · have hlog : n.log2 < 53 := (Nat.log2_lt hpos.ne').mpr hn
    have hm : 0 < n * 2 ^ (52 - n.log2) := by positivity
    have hfull : (n * 2 ^ (52 - n.log2)).log2 = 52 := by
      rw [log2_mul_two_pow hpos.ne']
      omega
    obtain ⟨hge, hlt⟩ := (Nat.log2_eq_iff hm.ne').mp hfull
    have hunpack : (Float.Model.pack (.finite .positive _ ((n.log2 : ℤ) - 52) hm)).unpack =
        .finite .positive _ ((n.log2 : ℤ) - 52) hm :=
      unpack_pack ⟨hlt, by omega, .inl hge⟩ (show (n.log2 : ℤ) - 52 ≤ 971 by omega)
    refine ⟨⟨Float.Model.pack (.finite .positive _ ((n.log2 : ℤ) - 52) hm)⟩, ?_, ?_⟩
    · change (Float.Model.pack _).unpack.isFinite = true
      rw [hunpack]
      rfl
    · have hpower : (2 : ℚ) ^ (52 - n.log2) * 2 ^ ((n.log2 : ℤ) - 52) = 1 := by
        rw [← zpow_natCast, ← zpow_add₀ two_ne_zero]
        have hzero : ((52 - n.log2 : ℕ) : ℤ) + (n.log2 - 52) = 0 := by omega
        rw [hzero, zpow_zero]
      rw [number, hunpack, value, Sign.apply]
      push_cast
      rw [mul_assoc, hpower, mul_one]

/-- The doubles of whole numbers of 53 bits are these numbers. -/
theorem number_ofNat {n : ℕ} (hn : n < 2 ^ 53) :
    (Float.ofNat n).isFinite = true ∧ number (Float.ofNat n) = n := by
  have hbits : n.toUInt64.toNat = n := by
    rw [Nat.toUInt64, UInt64.toNat_ofNat', Nat.mod_eq_of_lt (by omega)]
  have hrounded : IsRounded n n.toUInt64.toFloat := by
    refine ⟨UnpackedFloat.normalize Format.binary64 n 0 .positive, ?_, ?_⟩
    · simpa using nearest_normalize n 0 .positive
    · change Float.Model.pack (UnpackedFloat.normalize Format.binary64 n.toUInt64.toNat 0 _) = _
      rw [hbits]
  obtain ⟨y, hy, hnumber⟩ := exists_number_eq hn
  have hexact := hrounded.number_eq hy hnumber
  have heq : Float.ofNat n = n.toUInt64.toFloat * 1 := by
    change Float.ofScientific n false 0 = _
    rw [Float.ofScientific, dif_pos ⟨hn, by decide⟩]
    rfl
  have hproduct := isRounded_mul hexact.1 (y := 1) rfl
  rw [hexact.2, number_one, mul_one] at hproduct
  rw [heq]
  exact hproduct.number_eq hexact.1 hexact.2

end Doubles

end SparseWeights.Binary
