import SparseWeights.Proofs.Binary.Operations

/-!
Results that are finite, and results that are not negative. An operation does not bring a
finite double out of an infinite one or NaN, except a quotient by an infinite double. What
is at least zero is a finite double or the larger infinity.
-/

namespace SparseWeights.Binary

open Float.Model Float.Model.UnpackedFloat

section Unpacked

variable {a b : UnpackedFloat}

theorem isFinite_of_pack (h : (Float.Model.pack a).unpack.isFinite = true) :
    a.isFinite = true := by
  rcases a with (_ | _) | _ | s | ⟨s, m, e, hm⟩ <;> first | rfl | cases h

/-- The operations that have no finite result for an infinite operand, or for NaN. -/
def KeepsInfinite (op : UnpackedFloat → UnpackedFloat → UnpackedFloat) : Prop :=
  ∀ a b, (op a b).isFinite = true → a.isFinite = true ∧ b.isFinite = true

theorem keepsInfinite {op : UnpackedFloat → UnpackedFloat → UnpackedFloat}
    (hop : op = UnpackedFloat.add Format.binary64 ∨ op = UnpackedFloat.sub Format.binary64 ∨
      op = UnpackedFloat.mul Format.binary64) : KeepsInfinite op := by
  intro a b h
  rcases hop with rfl | rfl | rfl <;>
    rcases a with (_ | _) | _ | s | ⟨s, m, e, hm⟩ <;>
    rcases b with (_ | _) | _ | s' | ⟨s', m', e', hm'⟩ <;>
    first
    | exact ⟨rfl, rfl⟩
    | cases h

theorem isFinite_of_div_left (h : (UnpackedFloat.div Format.binary64 a b).isFinite = true) :
    a.isFinite = true := by
  rcases a with (_ | _) | _ | s | ⟨s, m, e, hm⟩ <;>
    rcases b with (_ | _) | _ | s' | ⟨s', m', e', hm'⟩ <;>
    first
    | rfl
    | cases h

/-- What is at least zero is finite or the larger infinity. -/
theorem eq_infinity_of_nonneg (hlow : (UnpackedFloat.zero .positive).le a = true) :
    a.isFinite = true ∨ a = .infinity .positive := by
  rcases a with (_ | _) | _ | s | ⟨s, m, e, hm⟩ <;>
    first
    | exact .inl rfl
    | exact .inr rfl
    | cases hlow

theorem infinity_div (hb : b.isFinite = true)
    (hpos : (UnpackedFloat.zero .positive).lt b = true) :
    UnpackedFloat.div Format.binary64 (.infinity .positive) b = .infinity .positive := by
  rcases b with (_ | _) | _ | s | ⟨_ | _, m, e, hm⟩ <;>
    first
    | rfl
    | (cases hb; done)
    | cases hpos

end Unpacked

variable {x y : Float}

theorem isFinite_of_add (h : (x + y).isFinite = true) :
    x.isFinite = true ∧ y.isFinite = true :=
  keepsInfinite (.inl rfl) _ _ (isFinite_of_pack h)

theorem isFinite_of_sub (h : (x - y).isFinite = true) :
    x.isFinite = true ∧ y.isFinite = true :=
  keepsInfinite (.inr (.inl rfl)) _ _ (isFinite_of_pack h)

theorem isFinite_of_mul (h : (x * y).isFinite = true) :
    x.isFinite = true ∧ y.isFinite = true :=
  keepsInfinite (.inr (.inr rfl)) _ _ (isFinite_of_pack h)

theorem isFinite_of_div (h : (x / y).isFinite = true) : x.isFinite = true :=
  isFinite_of_div_left (isFinite_of_pack h)

theorem eq_of_number_eq (hx : x.isFinite = true) (hy : y.isFinite = true)
    (heq : number x = number y) (hne : number x ≠ 0) : x = y := by
  have hmodel : x.toModel = y.toModel := by
    rw [IsRounded.pack_toModel x, IsRounded.pack_toModel y,
      eq_of_value_eq (canonical_of_isFinite hx).1 (canonical_of_isFinite hy).1 heq hne]
  cases x
  cases y
  exact congrArg _ hmodel

theorem isFinite_zero : (0 : Float).isFinite = true := rfl

theorem nonneg_iff (hx : x.isFinite = true) : 0 ≤ x ↔ 0 ≤ number x := by
  rw [le_iff_number isFinite_zero hx, number_zero]

theorem pos_iff (hx : x.isFinite = true) : 0 < x ↔ 0 < number x := by
  rw [lt_iff_number isFinite_zero hx, number_zero]

theorem le_self (hx : x.isFinite = true) : x ≤ x :=
  (le_iff_number hx hx).mpr le_rfl

theorem le_chain {z : Float} (hxy : x ≤ y) (hyz : y ≤ z) : x ≤ z := by
  rw [le_iff, le_iff_place] at hxy hyz ⊢
  obtain ⟨a, b, ha, hb, hab⟩ := hxy
  obtain ⟨b', c, hb', hc, hbc⟩ := hyz
  obtain rfl := Option.some.inj (hb.symm.trans hb')
  exact ⟨a, c, ha, hc, hab.trans hbc⟩

theorem not_lt_of_le (hle : x ≤ y) : ¬y < x := by
  rw [le_iff, le_iff_place] at hle
  rw [lt_iff, lt_iff_place]
  obtain ⟨a, b, ha, hb, hab⟩ := hle
  rintro ⟨b', a', hb', ha', hlt⟩
  obtain rfl := Option.some.inj (ha.symm.trans ha')
  obtain rfl := Option.some.inj (hb.symm.trans hb')
  exact hlt.not_ge hab

theorem not_lt_iff (hx : x.isFinite = true) (hy : y.isFinite = true) : ¬x < y ↔ y ≤ x := by
  rw [lt_iff_number hx hy, le_iff_number hy hx, not_lt]

/-- What is at least zero but not at least a finite double lies below that. -/
theorem isFinite_of_not_le (hx : 0 ≤ x) (hy : y.isFinite = true) (hnot : ¬y ≤ x) :
    x.isFinite = true ∧ x ≤ y := by
  rcases eq_infinity_of_nonneg ((le_iff _ _).mp hx) with hfinite | hinf
  · refine ⟨hfinite, (le_iff_number hfinite hy).mpr ?_⟩
    rw [le_iff_number hy hfinite] at hnot
    exact (not_le.mp hnot).le
  · refine absurd ?_ hnot
    rw [le_iff, hinf]
    exact le_infinity (canonical_of_isFinite hy).1

/-- A quotient by a positive double keeps the sign. -/
theorem quotient_nonneg (hx : 0 ≤ x) (hy : y.isFinite = true) (hpos : 0 < y) : 0 ≤ x / y := by
  rcases eq_infinity_of_nonneg ((le_iff _ _).mp hx) with hfinite | hinf
  · rw [pos_iff hy] at hpos
    refine (isRounded_div hfinite hy hpos.ne').le isFinite_zero ?_
    rw [number_zero]
    exact div_nonneg ((nonneg_iff hfinite).mp hx) hpos.le
  · have hunpack : (x / y).toModel.unpack = .infinity .positive := by
      change (Float.Model.pack (UnpackedFloat.div Format.binary64 x.toModel.unpack _)).unpack = _
      rw [hinf, infinity_div hy ((lt_iff _ _).mp hpos)]
      rfl
    rw [le_iff, hunpack]
    rfl

end SparseWeights.Binary
