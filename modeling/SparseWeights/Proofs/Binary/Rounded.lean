import SparseWeights.Proofs.Binary.Rounding

/-!
What a number rounds to. Packing keeps the order, infinities included; so a double that
bounds a number also bounds what the number rounds to, and rounding keeps the order of
numbers. A number between two doubles rounds to a finite one, and if it is not too small,
to one with its first 53 bits.
-/

namespace SparseWeights.Binary

open Float.Model Float.Model.UnpackedFloat

theorem isFinite_of_fits {a : UnpackedFloat} (hfits : Fits a) : a.isFinite = true := by
  rcases a with s | _ | s | ⟨s, m, e, hm⟩ <;> first | exact absurd hfits id | rfl

section Nearest

variable {a a' c : UnpackedFloat} {q q' : ℚ}

theorem Nearest.le_value (h : Nearest q a) (hc : Canonical c) (hle : value c ≤ q) :
    value c ≤ value a := by
  by_contra! hlt
  have hnear := h.le_of_canonical c hc
  rw [abs_sub_comm, abs_of_nonneg (sub_nonneg.mpr (hlt.le.trans hle)), abs_sub_comm,
    abs_of_nonneg (sub_nonneg.mpr hle)] at hnear
  linarith

theorem Nearest.value_le (h : Nearest q a) (hc : Canonical c) (hle : q ≤ value c) :
    value a ≤ value c := by
  by_contra! hlt
  have hnear := h.le_of_canonical c hc
  rw [abs_of_nonneg (sub_nonneg.mpr (hle.trans hlt.le)),
    abs_of_nonneg (sub_nonneg.mpr hle)] at hnear
  linarith

theorem Nearest.mono (h : Nearest q a) (h' : Nearest q' a') (hlt : q < q') :
    value a ≤ value a' := by
  by_contra! hgt
  -- Each number is at least as near to its own double, so the midpoint lies between them, the
  -- wrong way round.
  have hnear := h.le_of_canonical a' h'.canonical
  have hnear' := h'.le_of_canonical a h.canonical
  rcases abs_cases (value a - q) with ⟨ha, _⟩ | ⟨ha, _⟩ <;>
    rcases abs_cases (value a' - q) with ⟨hb, _⟩ | ⟨hb, _⟩ <;>
    rcases abs_cases (value a - q') with ⟨hc, _⟩ | ⟨hc, _⟩ <;>
    rcases abs_cases (value a' - q') with ⟨hd, _⟩ | ⟨hd, _⟩ <;>
    linarith

end Nearest

/-- The end of the range of finite doubles. -/
def rangeEnd : ℚ := 2 ^ 52 * 2 ^ (972 : ℤ)

theorem rangeEnd_pos : 0 < rangeEnd := by
  rw [rangeEnd]
  positivity

section Order

variable {a b : UnpackedFloat}

theorem abs_value_lt_rangeEnd (ha : Canonical a) (hfits : Fits a) : |value a| < rangeEnd := by
  rcases a with s | _ | s | ⟨s, m, e, hm⟩
  · exact absurd ha id
  · exact absurd ha id
  · rw [show value (.zero s) = 0 from rfl, abs_zero]
    exact rangeEnd_pos
  · exact abs_value_lt ha rfl (Int.lt_add_one_of_le hfits)

/-- What does not fit is beyond the range, and packed as the infinite double on its side. -/
theorem infinity_of_not_fits (ha : Canonical a) (hfits : ¬Fits a) :
    (Float.Model.pack a).unpack = .infinity .positive ∧ rangeEnd ≤ value a ∨
      (Float.Model.pack a).unpack = .infinity .negative ∧ value a ≤ -rangeEnd := by
  rcases a with s | _ | s | ⟨s, m, e, hm⟩
  · exact absurd ha id
  · exact absurd ha id
  · exact absurd trivial hfits
  · have hover : 971 < e := not_le.mp hfits
    have hmantissa : (2 : ℚ) ^ 52 ≤ m := by exact_mod_cast ha.2.2.resolve_right (by omega)
    have hpower : (2 : ℚ) ^ (972 : ℤ) ≤ 2 ^ e := zpow_le_zpow_right₀ one_le_two hover
    have hlarge : rangeEnd ≤ m * 2 ^ e :=
      mul_le_mul hmantissa hpower (zpow_two_pos _).le (Nat.cast_nonneg m)
    rw [unpack_pack_infinity hm hover]
    cases s with
    | positive => exact .inl ⟨rfl, by simpa [value, Sign.apply] using hlarge⟩
    | negative => exact .inr ⟨rfl, by simpa [value, Sign.apply] using hlarge⟩

theorem le_infinity (ha : Canonical a) : a.le (.infinity .positive) = true := by
  rcases a with s | _ | s | ⟨_ | _, m, e, hm⟩ <;> first | exact absurd ha id | rfl

theorem infinity_le (ha : Canonical a) : (UnpackedFloat.infinity .negative).le a = true := by
  rcases a with s | _ | s | ⟨_ | _, m, e, hm⟩ <;> first | exact absurd ha id | rfl

theorem pack_le_pack (ha : Canonical a) (hb : Canonical b) (hle : value a ≤ value b) :
    (Float.Model.pack a).unpack.le (Float.Model.pack b).unpack = true := by
  have hend := rangeEnd_pos
  by_cases hfits : Fits a
  · rw [unpack_pack ha hfits]
    obtain ⟨hlow, _⟩ := abs_lt.mp (abs_value_lt_rangeEnd ha hfits)
    by_cases hfits' : Fits b
    · rw [unpack_pack hb hfits']
      exact (le_iff_value ha hb).mpr hle
    · obtain ⟨hinf, _⟩ | ⟨_, hside⟩ := infinity_of_not_fits hb hfits'
      · rw [hinf]
        exact le_infinity ha
      · linarith
  · obtain ⟨hinf, hside⟩ | ⟨hinf, _⟩ := infinity_of_not_fits ha hfits
    · rw [hinf]
      by_cases hfits' : Fits b
      · obtain ⟨_, hhigh⟩ := abs_lt.mp (abs_value_lt_rangeEnd hb hfits')
        linarith
      · obtain ⟨hinf', _⟩ | ⟨_, hside'⟩ := infinity_of_not_fits hb hfits'
        · rw [hinf']
          rfl
        · linarith
    · rw [hinf]
      by_cases hfits' : Fits b
      · rw [unpack_pack hb hfits']
        exact infinity_le hb
      · obtain ⟨hinf', _⟩ | ⟨hinf', _⟩ := infinity_of_not_fits hb hfits' <;>
        · rw [hinf']
          rfl

end Order

/-- What a number rounds to: the nearest double, or an infinite one beyond the range. -/
def IsRounded (q : ℚ) (x : Float) : Prop := ∃ a, Nearest q a ∧ x.toModel = Float.Model.pack a

namespace IsRounded

variable {x y z : Float} {q q' : ℚ}

theorem pack_toModel (x : Float) : x.toModel = Float.Model.pack x.toModel.unpack := by
  obtain ⟨⟨bits, hvalid⟩⟩ := x
  have hbits := UnpackedFloat.pack_unpack_of_valid hvalid
  simp only [Float.Model.pack, Float.Model.unpack, Float.Model.mk.injEq]
  exact UInt64.toBitVec_inj.mp hbits.symm

/-- A double that is at most a number is at most what it rounds to. -/
theorem le (h : IsRounded q x) (hy : y.isFinite = true) (hle : number y ≤ q) : y ≤ x := by
  obtain ⟨a, ha, hx⟩ := h
  have hcanonical := (canonical_of_isFinite hy).1
  rw [le_iff, hx, pack_toModel y]
  exact pack_le_pack hcanonical ha.canonical (ha.le_value hcanonical hle)

theorem ge (h : IsRounded q x) (hy : y.isFinite = true) (hle : q ≤ number y) : x ≤ y := by
  obtain ⟨a, ha, hx⟩ := h
  have hcanonical := (canonical_of_isFinite hy).1
  rw [le_iff, hx, pack_toModel y]
  exact pack_le_pack ha.canonical hcanonical (ha.value_le hcanonical hle)

theorem mono (h : IsRounded q x) (h' : IsRounded q' y) (hlt : q < q') : x ≤ y := by
  obtain ⟨a, ha, hx⟩ := h
  obtain ⟨b, hb, hy⟩ := h'
  rw [le_iff, hx, hy]
  exact pack_le_pack ha.canonical hb.canonical (ha.mono hb hlt)

/-- A finite double that a number rounds to is the nearest one. -/
theorem nearest (h : IsRounded q x) (hx : x.isFinite = true) :
    Nearest q x.toModel.unpack := by
  obtain ⟨a, ha, hpack⟩ := h
  by_cases hfits : Fits a
  · rwa [hpack, unpack_pack ha.canonical hfits]
  · exfalso
    change x.toModel.unpack.isFinite = true at hx
    rw [hpack] at hx
    obtain ⟨hinf, _⟩ | ⟨hinf, _⟩ := infinity_of_not_fits ha.canonical hfits <;>
    · rw [hinf] at hx
      cases hx

/-- A number between two finite doubles rounds to a finite double. -/
theorem isFinite (h : IsRounded q x) (hy : y.isFinite = true) (hz : z.isFinite = true)
    (hlow : number y ≤ q) (hhigh : q ≤ number z) : x.isFinite = true := by
  obtain ⟨a, ha, hpack⟩ := h
  obtain ⟨hy, hfits_y⟩ := canonical_of_isFinite hy
  obtain ⟨hz, hfits_z⟩ := canonical_of_isFinite hz
  have hbelow := (abs_lt.mp (abs_value_lt_rangeEnd hy hfits_y)).1.trans_le (ha.le_value hy hlow)
  have habove := (ha.value_le hz hhigh).trans_lt (abs_lt.mp (abs_value_lt_rangeEnd hz hfits_z)).2
  have hfits : Fits a := by
    by_contra hfits
    obtain ⟨_, hside⟩ | ⟨_, hside⟩ := infinity_of_not_fits ha.canonical hfits
    · exact hside.not_gt habove
    · exact hside.not_gt hbelow
  change x.toModel.unpack.isFinite = true
  rw [hpack, unpack_pack ha.canonical hfits]
  exact isFinite_of_fits hfits

/-- Rounding does not lead out of the interval between two finite doubles. -/
theorem between (h : IsRounded q x) (hy : y.isFinite = true) (hz : z.isFinite = true)
    (hlow : number y ≤ q) (hhigh : q ≤ number z) :
    x.isFinite = true ∧ number y ≤ number x ∧ number x ≤ number z := by
  have hx := h.isFinite hy hz hlow hhigh
  exact ⟨hx, (le_iff_number hy hx).mp (h.le hy hlow), (le_iff_number hx hz).mp (h.ge hz hhigh)⟩

/-- A number that a double stands for is kept. -/
theorem number_eq (h : IsRounded q x) (hy : y.isFinite = true) (hq : number y = q) :
    x.isFinite = true ∧ number x = q := by
  have hx := h.isFinite hy hy hq.le hq.ge
  refine ⟨hx, ?_⟩
  have hnear := (h.nearest hx).le_of_canonical _ (canonical_of_isFinite hy).1
  change |number x - q| ≤ |number y - q| at hnear
  rw [hq, sub_self, abs_zero, abs_nonpos_iff, sub_eq_zero] at hnear
  exact hnear

/-- A number that is not too small rounds to one with its first 53 bits. -/
theorem error_le (h : IsRounded q x) (hx : x.isFinite = true) (hq : 2 ^ (-1022 : ℤ) ≤ |q|) :
    |number x - q| ≤ |q| / 2 ^ 53 :=
  (h.nearest hx).error_le hq

end IsRounded

end SparseWeights.Binary
