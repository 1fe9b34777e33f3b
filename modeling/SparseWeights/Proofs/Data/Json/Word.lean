import Mathlib
import SparseWeights.Proofs.Data.Json.Number

/-!
Words in JSON. Nothing, the truth values and the doubles that are no numbers are
written as words, and a word is read as the value it stands for. There is one NaN
and one infinity of either sign.
-/

namespace SparseWeights.Json

open Float.Model in
/-- An infinite double is one of two. -/
theorem eq_infinity {x : Float} (h : x.isInf = true) : x = 1 / 0 ∨ x = -1 / 0 := by
  change (UnpackedFloat.unpack Format.binary64 x.toBits.toBitVec).isInf = true at h
  have hbits : UnpackedFloat.pack Format.binary64
      (UnpackedFloat.unpack Format.binary64 x.toBits.toBitVec) = x.toBits.toBitVec :=
    UnpackedFloat.pack_unpack_of_valid x.toModel.valid
  have hsame {y : Float} (hy : x.toBits.toBitVec = y.toBits.toBitVec) : x = y :=
    Float.toBits_inj.mp (UInt64.toBitVec_inj.mp hy)
  cases hx : UnpackedFloat.unpack Format.binary64 x.toBits.toBitVec with
  | infinity sign =>
      rw [hx] at hbits
      cases sign with
      | positive => exact .inl (hsame (hbits.symm.trans (by decide +kernel)))
      | negative => exact .inr (hsame (hbits.symm.trans (by decide +kernel)))
  | notANumber => rw [hx] at h; cases h
  | zero => rw [hx] at h; cases h
  | finite => rw [hx] at h; cases h

theorem eq_nan {x : Float} (h : x.isNaN = true) : x = 0 / 0 := by
  rw [Float.isNaN_eq_decide_eq_nan, decide_eq_true_iff] at h
  exact h.trans (by decide)

/-- The word of a value is read, whatever follows it. -/
theorem valueAt_word {word : List Char} {value : Value} (hword : (word, value) ∈ words)
    (fuel levels : ℕ) (rest : List Char) :
    valueAt (fuel + 1) levels (word ++ rest) = .ok (value, rest) := by
  simp only [words, List.mem_cons, List.not_mem_nil, or_false, Prod.mk.injEq] at hword
  rcases hword with ⟨rfl, rfl⟩ | ⟨rfl, rfl⟩ | ⟨rfl, rfl⟩ | ⟨rfl, rfl⟩ | ⟨rfl, rfl⟩ | ⟨rfl, rfl⟩ <;>
    cases levels <;> rfl

theorem valueAt_floatText {x : Float} (fuel levels : ℕ) {rest : List Char} (hrest : Ends rest) :
    valueAt (fuel + 1) levels ((floatText x).toList ++ rest) = .ok (.float x, rest) := by
  rw [floatText]
  split
  next hnan =>
    obtain rfl := eq_nan hnan
    exact valueAt_word (by simp [words]) fuel levels rest
  next hnan =>
    split
    next hinf =>
      rcases eq_infinity hinf with rfl | rfl
      · rw [if_neg (by decide)]
        exact valueAt_word (by simp [words]) fuel levels rest
      · rw [if_pos (by decide)]
        exact valueAt_word (by simp [words]) fuel levels rest
    next hinf =>
      rw [Bool.not_eq_true] at hnan hinf
      exact valueAt_of_number (number_shortest hnan hinf hrest) fuel levels

end SparseWeights.Json
