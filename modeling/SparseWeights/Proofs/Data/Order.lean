import SparseWeights.Proofs.Binary.Fraction
import SparseWeights.Proofs.Data.Tensor

/-!
Numbers among values. Values are compared without rounding, and for a finite double that is
the comparison of the number it stands for. Whole numbers that are not negative become
doubles that are not, and the whole part of a positive double is at most that double.
-/

namespace SparseWeights

open Binary

namespace Binary

open Float.Model in
theorem isFinite_iff_not_special (x : Float) :
    x.isFinite = true ↔ x.isNaN = false ∧ x.isInf = false := by
  change x.toModel.unpack.isFinite = true ↔
    x.toModel.unpack.isNaN = false ∧ x.toModel.unpack.isInf = false
  cases x.toModel.unpack <;>
    simp [UnpackedFloat.isFinite, UnpackedFloat.isNaN, UnpackedFloat.isInf]

end Binary

namespace Value

variable {x : Float} {n : ℤ}

theorem exact_float (hx : x.isFinite = true) :
    ∃ (num : ℤ) (den : ℕ), (Value.float x).exact = .ok (.fraction num den) ∧ 0 < den ∧
      number x = num / den := by
  obtain ⟨hnan, hinf⟩ := (isFinite_iff_not_special x).mp hx
  refine ⟨_, _, ?_, Nat.pow_pos two_pos, number_eq_div hx⟩
  rw [exact, Exact.ofFloat, hnan, hinf]
  rfl

/-- A value is below another if their numbers in full compare so. -/
theorem isBelow_eq {a b : Value} {u v : Exact} (ha : a.exact = .ok u) (hb : b.exact = .ok v) :
    a.isBelow b = .ok (u.compare? v == some .lt) := by
  rw [isBelow, compare?, ha, hb]
  rfl

/-- A finite double is compared with a whole number as the number it stands for. -/
theorem isBelow_int (hx : x.isFinite = true) (n : ℤ) :
    (Value.float x).isBelow (.int n) = .ok (decide (number x < n)) := by
  obtain ⟨num, den, hexact, hden, hnumber⟩ := exact_float hx
  have hlt : num * (1 : ℕ) < n * den ↔ number x < n := by
    rw [hnumber, div_lt_iff₀ (by exact_mod_cast hden), Nat.cast_one, mul_one]
    exact_mod_cast Iff.rfl
  rw [isBelow_eq hexact rfl, Exact.compare?]
  congr 1
  rw [Bool.eq_iff_iff, beq_iff_eq, Option.some_inj, compare_lt_iff_lt, decide_eq_true_iff, hlt]

theorem int_isBelow (hx : x.isFinite = true) (n : ℤ) :
    (Value.int n).isBelow (.float x) = .ok (decide (n < number x)) := by
  obtain ⟨num, den, hexact, hden, hnumber⟩ := exact_float hx
  have hlt : n * den < num * (1 : ℕ) ↔ n < number x := by
    rw [hnumber, lt_div_iff₀ (by exact_mod_cast hden), Nat.cast_one, mul_one]
    exact_mod_cast Iff.rfl
  rw [isBelow_eq rfl hexact, Exact.compare?]
  congr 1
  rw [Bool.eq_iff_iff, beq_iff_eq, Option.some_inj, compare_lt_iff_lt, decide_eq_true_iff, hlt]

theorem int_isBelow_int (m n : ℤ) : (Value.int m).isBelow (.int n) = .ok (decide (m < n)) := by
  rw [isBelow_eq rfl rfl, Exact.compare?]
  congr 1
  rw [Bool.eq_iff_iff, beq_iff_eq, Option.some_inj, compare_lt_iff_lt, decide_eq_true_iff,
    Nat.cast_one, mul_one, mul_one]

/-- What lies between two whole numbers is finite. -/
theorem isFinite_of_isBelow {m : ℤ} (hlow : (Value.int m).isBelow (.float x) = .ok true)
    (hhigh : (Value.float x).isBelow (.int n) = .ok true) : x.isFinite = true := by
  rw [isBelow_eq rfl rfl, Except.ok.injEq, Exact.ofFloat] at hlow hhigh
  rw [isFinite_iff_not_special]
  cases hnan : x.isNaN with
  | true =>
      rw [hnan] at hlow
      cases hlow
  | false =>
      cases hinf : x.isInf with
      | false => exact ⟨rfl, rfl⟩
      | true =>
          rw [hnan, hinf] at hlow hhigh
          simp only [Bool.false_eq_true, if_false, if_true, Exact.compare?] at hlow hhigh
          cases hsign : decide (x < 0) <;> rw [hsign] at hlow hhigh <;> contradiction

/-- What is not below zero does not become a double below zero. -/
theorem nonneg_of_toFloat {v : Value} (hx : x.isFinite = true) (hv : v.toFloat = .ok x)
    (hbelow : v.isBelow (.int 0) = .ok false) : 0 ≤ x := by
  cases v with
  | bool b =>
      obtain rfl := Except.ok.inj hv
      cases b <;> decide
  | int n =>
      rw [toFloat] at hv
      cases hn : Decimal.Binary64.ofInt? n with
      | none => simp [hn] at hv
      | some y =>
          rw [hn] at hv
          obtain rfl := Except.ok.inj hv
          rw [int_isBelow_int, Except.ok.injEq, decide_eq_false_iff_not, not_lt] at hbelow
          exact (ofInt?_nonneg hbelow hn).2
  | float y =>
      obtain rfl := Except.ok.inj hv
      rw [isBelow_int hx, Except.ok.injEq, decide_eq_false_iff_not] at hbelow
      exact (nonneg_iff hx).mpr (by simpa using hbelow)
  | text s => cases hbelow
  | null | list _ | record _ | moment _ => cases hv

/-- A positive double lies between its whole part and the next whole number. -/
theorem wholePart_spec {n : ℕ} (hx : x.isFinite = true) (hpos : 0 < n)
    (hwhole : wholePart x = n) : (n : ℚ) ≤ number x ∧ number x < n + 1 := by
  have hquotient := Int.natCast_nonneg ((Decimal.Binary64.ofFloat x).num /
    (Decimal.Binary64.ofFloat x).den)
  have hden : 0 < (Decimal.Binary64.ofFloat x).den := Nat.pow_pos two_pos
  rw [wholePart, Decimal.signed] at hwhole
  split at hwhole
  · omega
  next hsign =>
    rw [Bool.not_eq_true] at hsign
    rw [number_eq_div hx, hsign, Decimal.signed, if_neg Bool.false_ne_true,
      ← Nat.cast_inj.mp hwhole, Int.cast_natCast]
    refine ⟨Nat.cast_div_le, ?_⟩
    rw [div_lt_iff₀ (by exact_mod_cast hden)]
    exact_mod_cast Nat.lt_mul_of_div_lt (Nat.lt_succ_self _) hden

end Value

end SparseWeights
