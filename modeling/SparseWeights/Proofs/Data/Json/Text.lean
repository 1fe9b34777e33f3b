import Mathlib.Tactic
import SparseWeights.Data.Json.Reader
import SparseWeights.Data.Json.Writer

/-!
Texts in JSON. Every character of a text is written as itself or as an escape,
and either is read as the one code unit that the character is; no code unit of a
character is half of a pair.
-/

namespace SparseWeights.Json

/-- A control character is four digits. -/
theorem hexPadded_control : ∀ n < 0x20,
    (Value.hexPadded 4 n).length = 4 ∧ hex? (Value.hexPadded 4 n) = some n := by
  decide

theorem units?_unicodeEscape {n : ℕ} (hn : n < 0x20) (tail : List Char) :
    units? (unicodeEscape n ++ tail) =
      (units? tail).map fun found => (n :: found.1, found.2) := by
  obtain ⟨hlength, hread⟩ := hexPadded_control n hn
  obtain ⟨a, b, c, d, hdigits⟩ := List.length_eq_four.mp hlength
  rw [hdigits] at hread
  rw [unicodeEscape, hdigits]
  simp only [List.cons_append, List.nil_append, units?, hread]
  cases units? tail <;> rfl

/-- A character that has a short escape is read from it. -/
theorem units?_escape {e : Char} {n : ℕ} (he : escape? e = some n) (tail : List Char) :
    units? ('\\' :: e :: tail) = (units? tail).map fun found => (n :: found.1, found.2) := by
  have hunicode : e ≠ 'u' := by
    rintro rfl
    cases he
  rw [units?, he]
  · cases units? tail <;> rfl
  · rintro a b c d rest rfl
    exact absurd rfl hunicode

/-- A character that needs no escape is read as it is. -/
theorem units?_plain {c : Char} (hquote : c ≠ '\x22') (hslash : c ≠ '\\')
    (hcontrol : ¬ c.toNat < 0x20) (tail : List Char) :
    units? (c :: tail) = (units? tail).map fun found => (c.toNat :: found.1, found.2) := by
  rw [units?, if_neg hcontrol]
  · cases units? tail <;> rfl
  · exact hquote
  · exact fun _ _ _ _ _ h => absurd h hslash
  · exact fun _ _ h => absurd h hslash

theorem units?_escapedChar (c : Char) (tail : List Char) :
    units? (escapedChar c ++ tail) =
      (units? tail).map fun found => (c.toNat :: found.1, found.2) := by
  rw [escapedChar]
  split_ifs with hquote hslash hline hreturn htab hfeed hback hcontrol
  rotate_right
  · exact units?_plain hquote hslash hcontrol tail
  rotate_right
  · exact units?_unicodeEscape hcontrol tail
  all_goals
    subst c
    exact units?_escape rfl tail

theorem units?_flatMap (cs : List Char) (tail : List Char) :
    units? (cs.flatMap escapedChar ++ '\x22' :: tail) = some (cs.map Char.toNat, tail) := by
  induction cs with
  | nil => simp [units?]
  | cons c cs ih =>
      rw [List.flatMap_cons, List.append_assoc, units?_escapedChar, ih]
      rfl

/-- No character is half of a pair. -/
theorem not_isHigh_toNat (c : Char) : isHigh c.toNat = false := by
  have hvalid := c.valid
  simp only [isHigh, Char.toNat, UInt32.isValidChar, Nat.isValidChar] at *
  simp only [Bool.and_eq_false_iff, decide_eq_false_iff_not]
  omega

theorem not_isLow_toNat (c : Char) : isLow c.toNat = false := by
  have hvalid := c.valid
  simp only [isLow, Char.toNat, UInt32.isValidChar, Nat.isValidChar] at *
  simp only [Bool.and_eq_false_iff, decide_eq_false_iff_not]
  omega

theorem charOfUnit?_toNat (c : Char) : charOfUnit? c.toNat = some c := by
  rw [charOfUnit?, not_isHigh_toNat, not_isLow_toNat]
  exact congrArg some (Char.ofNat_toNat c)

theorem joinUnits?_map_toNat (cs : List Char) : joinUnits? (cs.map Char.toNat) = some cs := by
  induction cs with
  | nil => rfl
  | cons c cs ih =>
      cases cs with
      | nil => exact congrArg (Option.map ([·])) (charOfUnit?_toNat c)
      | cons d cs =>
          rw [List.map_cons] at ih
          rw [List.map_cons, List.map_cons, joinUnits?, not_isHigh_toNat, charOfUnit?_toNat, ih]
          rfl

/-- A text is read from what is written for it, and what follows is left. -/
theorem string_stringText (s : String) (rest : List Char) :
    ∃ cs, (stringText s).toList ++ rest = '\x22' :: cs ∧ string cs = .ok (s, rest) := by
  refine ⟨s.toList.flatMap escapedChar ++ '\x22' :: rest, by simp [stringText], ?_⟩
  rw [string, units?_flatMap]
  simp [joinUnits?_map_toNat]

end SparseWeights.Json
