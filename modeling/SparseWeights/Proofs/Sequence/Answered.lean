import SparseWeights.Proofs.Data.Order
import SparseWeights.Proofs.Sequence.Levels
import SparseWeights.Sequence.Reading

/-!
Requests that are answered. From the answer follows what was read: a positive number of
entries that fits the memory, bounds that are not refused, and a level between zero and one.
-/

namespace SparseWeights

/-- What has room is counted by doubles, and there is some left to add to it. -/
theorem Memory.checkedCount_eq_ok {memory : Memory} {n m : ℕ}
    (h : memory.checkedCount n = .ok m) : m = n ∧ n < 2 ^ 50 := by
  rw [checkedCount] at h
  split at h
  · cases h
  · split at h
    · cases h
    next hroom =>
      exact ⟨(Except.ok.inj h).symm, lt_of_lt_of_le (not_le.mp hroom) memory.available_le⟩

namespace Sequence

open Binary

variable {memory : Memory} {quantile : Float → Float} {r : Request} {factors : List Float}

/-- What a request for even steps is read as. -/
structure ReadsSteps (r : Request) (n : ℕ) (first last : Float) : Prop where
  count : r.count.toSize = .ok (n : ℤ)
  first : bound r.first = .ok first
  last : bound r.last = .ok last

/-- What a request for quantiles is read as. -/
structure ReadsQuantiles (r : Request) (q size : Float) (count : ℕ) : Prop where
  level : r.level.toFloat = .ok q
  tests : tests r.count = .ok (size, count)

theorem generate_eq_ok {n : ℕ} {first last : Float} {shape : Shape Float}
    (h : generate quantile n first last shape = .ok factors) :
    n ≠ 0 ∧ rejection? first last shape = none ∧
      factors = Sequence.factors quantile n first last shape := by
  rw [generate] at h
  split at h
  · cases h
  next hn =>
    split at h
    · cases h
    next hnone => exact ⟨hn, hnone, (Except.ok.inj h).symm⟩

theorem evenFactors_eq_ok (h : evenFactors memory quantile r = .ok factors) :
    ∃ n first last, ReadsSteps r n first last ∧ 0 < n ∧ n < 2 ^ 50 ∧
      badBounds first last = false ∧ factors = runningMin (linear first last n) := by
  obtain ⟨count, hcount, h⟩ := bind_eq_ok_iff.mp h
  obtain ⟨first, hfirst, h⟩ := bind_eq_ok_iff.mp h
  obtain ⟨last, hlast, h⟩ := bind_eq_ok_iff.mp h
  obtain ⟨n, hn, h⟩ := bind_eq_ok_iff.mp h
  obtain ⟨rfl, hroom⟩ := Memory.checkedCount_eq_ok (liftM_fault_eq_ok_iff.mp hn)
  obtain ⟨hpos, hbounds, rfl⟩ := generate_eq_ok h
  have hcast : count = (count.toNat : ℤ) := by omega
  refine ⟨count.toNat, first, last, ⟨?_, liftM_fault_eq_ok_iff.mp hfirst,
    liftM_fault_eq_ok_iff.mp hlast⟩, Nat.pos_of_ne_zero hpos, hroom, ?_, rfl⟩
  · rw [← hcast]
    exact liftM_fault_eq_ok_iff.mp hcount
  · rw [rejection?] at hbounds
    split at hbounds
    · cases hbounds
    next hgood => exact Bool.not_eq_true _ ▸ hgood

/-- A level that is not refused is a double between zero and one. -/
theorem level_of_hasBadLevel (h : r.hasBadLevel = .ok false) :
    ∃ q, r.level = .float q ∧ q.isFinite = true ∧ 0 < number q ∧ number q < 1 := by
  obtain ⟨low, hlow, h⟩ := bind_eq_ok_iff.mp h
  obtain ⟨high, hhigh, h⟩ := bind_eq_ok_iff.mp h
  have hboth : low = true ∧ high = true := by simpa [pure, Except.pure] using h
  obtain ⟨rfl, rfl⟩ := hboth
  cases hlevel : r.level with
  | float x =>
      rw [hlevel] at hlow hhigh
      have hx := Value.isFinite_of_isBelow hlow hhigh
      rw [Value.int_isBelow hx, Except.ok.injEq, decide_eq_true_iff] at hlow
      rw [Value.isBelow_int hx, Except.ok.injEq, decide_eq_true_iff] at hhigh
      exact ⟨x, rfl, hx, by exact_mod_cast hlow, by exact_mod_cast hhigh⟩
  | int m =>
      rw [hlevel, Value.int_isBelow_int, Except.ok.injEq, decide_eq_true_iff] at hlow hhigh
      omega
  | bool b =>
      rw [hlevel] at hlow hhigh
      cases b
      · cases hlow
      · cases hhigh
  | text _ | null | list _ | record _ | moment _ =>
      rw [hlevel] at hlow
      cases hlow

theorem tests_of_toSize {v : Value} {n : ℤ} {size : Float} {count : ℕ} (hv : v.toSize = .ok n)
    (h : tests v = .ok (size, count)) : size = Float.ofNat count ∧ count = n.toNat := by
  have hcount : (do
      let n := (← v.toSize).toNat
      return (Float.ofNat n, n)) = .ok (size, count) := by
    cases v <;> first | exact h | cases hv
  rw [hv] at hcount
  obtain ⟨rfl, rfl⟩ := Prod.mk.inj (Except.ok.inj hcount)
  exact ⟨rfl, rfl⟩

section Tests

variable {count : ℕ} (hroom : count < 2 ^ 50)

include hroom

theorem size_of_float {x size : Float} (h : tests (.float x) = .ok (size, count))
    (hpos : 0 < count) (hint : (Value.float x).toInt = .ok (count : ℤ)) :
    size.isFinite = true ∧ (count : ℚ) ≤ number size ∧ number size ≤ 2 ^ 51 := by
  obtain ⟨n, -, hsame⟩ := bind_eq_ok_iff.mp h
  obtain ⟨rfl, rfl⟩ := Prod.mk.inj (Except.ok.inj hsame)
  have hcast : (n : ℚ) < 2 ^ 50 := by exact_mod_cast hroom
  rw [Value.toInt] at hint
  split at hint
  · cases hint
  next hnan =>
    split at hint
    · cases hint
    next hinf =>
      rw [Bool.not_eq_true] at hnan hinf
      have hx := (isFinite_iff_not_special x).mpr ⟨hnan, hinf⟩
      obtain ⟨hle, hlt⟩ := Value.wholePart_spec hx hpos (Except.ok.inj hint)
      exact ⟨hx, hle, by linarith⟩

theorem size_of_toSize {v : Value} {n : ℤ} {size : Float} (hv : v.toSize = .ok n)
    (h : tests v = .ok (size, count)) :
    size.isFinite = true ∧ (count : ℚ) ≤ number size ∧ number size ≤ 2 ^ 51 := by
  obtain ⟨rfl, -⟩ := tests_of_toSize hv h
  obtain ⟨hsize, hnumber⟩ := number_ofNat (n := count) (by omega)
  have hcast : (count : ℚ) < 2 ^ 50 := by exact_mod_cast hroom
  exact ⟨hsize, hnumber.ge, by linarith⟩

/-- If the number of tests is a whole one, there are as many ranks. -/
theorem ranked_of_tests {v : Value} {q size : Float}
    (hq : q.isFinite = true ∧ 0 < number q ∧ number q < 1) (h : tests v = .ok (size, count))
    (hpos : 0 < count) (hint : v.toInt = .ok (count : ℤ)) : Ranked q size count := by
  have hsize : size.isFinite = true ∧ (count : ℚ) ≤ number size ∧ number size ≤ 2 ^ 51 := by
    cases v with
    | float x => exact size_of_float hroom h hpos hint
    | int m => exact size_of_toSize hroom rfl h
    | bool b => exact size_of_toSize hroom rfl h
    | null | text _ | list _ | record _ | moment _ => cases h
  exact ⟨hq.1, hq.2.1, hq.2.2, hsize.1, hsize.2.1, hsize.2.2⟩

end Tests

theorem quantileFactors_eq_ok (h : quantileFactors memory quantile r = .ok factors) :
    ∃ q size count first, ReadsQuantiles r q size count ∧ 0 < count ∧ count < 2 ^ 50 ∧
      (q.isFinite = true ∧ 0 < number q ∧ number q < 1) ∧
      scale r.first (quantiles quantile q size count) = .ok first ∧
      factors = runningMin ((scaled? first (quantiles quantile q size count)).getD
        (List.replicate count 0)) := by
  obtain ⟨bad, hbad, h⟩ := bind_eq_ok_iff.mp h
  cases bad with
  | true => cases h
  | false =>
      rw [if_neg Bool.false_ne_true] at h
      obtain ⟨q, hq, h⟩ := bind_eq_ok_iff.mp h
      obtain ⟨⟨size, count⟩, htests, h⟩ := bind_eq_ok_iff.mp h
      obtain ⟨counted, hcounted, h⟩ := bind_eq_ok_iff.mp h
      obtain ⟨first, hfirst, hanswer⟩ := bind_eq_ok_iff.mp h
      rw [liftM_fault_eq_ok_iff] at hbad hq htests hcounted hfirst
      obtain ⟨rfl, hroom⟩ := Memory.checkedCount_eq_ok hcounted
      obtain ⟨q', hlevel, hrange⟩ := level_of_hasBadLevel hbad
      rw [hlevel] at hq
      obtain rfl := Except.ok.inj hq
      have hpos : 0 < counted := by
        rcases Nat.eq_zero_or_pos counted with rfl | hpos
        · cases hfirst
        · exact hpos
      have hreads : ReadsQuantiles r q' size counted := ⟨by rw [hlevel]; rfl, htests⟩
      refine ⟨q', size, counted, first, hreads, hpos, hroom, hrange, hfirst, ?_⟩
      split at hanswer
      next m hm =>
        obtain ⟨-, -, rfl⟩ := generate_eq_ok hanswer
        rw [hm] at htests
        obtain ⟨rfl, -⟩ := tests_of_toSize rfl htests
        rfl
      next =>
        cases hscaled : scaled? first (quantiles quantile q' size counted) with
        | none =>
            rw [hscaled] at hanswer
            cases hanswer
        | some entries =>
            rw [hscaled] at hanswer
            exact (Except.ok.inj hanswer).symm

/-- A bound that is not refused does not become a double below zero. -/
theorem first_nonneg (h : r.hasBadBounds = .ok false) {x : Float} (hx : x.isFinite = true)
    (hread : r.first.toFloat = .ok x) : 0 ≤ x := by
  obtain ⟨below, hbelow, h⟩ := bind_eq_ok_iff.mp h
  cases below with
  | true => cases h
  | false => exact Value.nonneg_of_toFloat hx hread hbelow

theorem ofRequestBy_eq_ok (h : ofRequestBy memory quantile r = .ok factors) :
    r.hasBadBounds = .ok false ∧
      (r.kind.display = "linear" ∧ evenFactors memory quantile r = .ok factors ∨
        r.kind.display = "bh" ∧ quantileFactors memory quantile r = .ok factors) := by
  obtain ⟨none, -, h⟩ := bind_eq_ok_iff.mp h
  cases none with
  | true => cases h
  | false =>
      obtain ⟨bad, hbad, h⟩ := bind_eq_ok_iff.mp h
      cases bad with
      | true => cases h
      | false =>
          refine ⟨liftM_fault_eq_ok_iff.mp hbad, ?_⟩
          rw [if_neg Bool.false_ne_true] at h
          split at h
          next hkind => exact .inl ⟨hkind, h⟩
          next hkind => exact .inr ⟨hkind, h⟩
          next => cases h

end Sequence

end SparseWeights
