import SparseWeights.Data.Json.Reader
import SparseWeights.Data.Json.Writer
import SparseWeights.Proofs.Decimal.Digits
import SparseWeights.Proofs.Decimal.Shortest

/-!
Numbers in JSON. What is written for a whole number or for a double is read as
that number, whatever follows it, as long as that is neither a digit nor a point
nor an exponent.
-/

namespace SparseWeights.Json

open Decimal (Binary64 pow10)

/-- What may follow a value: nothing, a comma or a new line. -/
def Ends (rest : List Char) : Prop := ∀ c ∈ rest.head?, c = ',' ∨ c = '\n'

variable {rest : List Char}

theorem isDigit_eq : isDigit = Char.isDigit := rfl

theorem digitsOf_eq (cs : List Char) : digitsOf cs = Nat.ofDigitChars 10 cs 0 := rfl

theorem takeWhile_digits {ds : List Char} (hds : ∀ c ∈ ds, c.isDigit = true)
    (hrest : ∀ c ∈ rest.head?, c.isDigit = false) : (ds ++ rest).takeWhile Char.isDigit = ds := by
  rw [List.takeWhile_append_of_pos hds]
  cases rest with
  | nil => simp
  | cons c rest => simp [hrest c rfl]

theorem dropWhile_digits {ds : List Char} (hds : ∀ c ∈ ds, c.isDigit = true)
    (hrest : ∀ c ∈ rest.head?, c.isDigit = false) : (ds ++ rest).dropWhile Char.isDigit = rest := by
  rw [List.dropWhile_append_of_pos hds]
  cases rest with
  | nil => rfl
  | cons c rest => simp [hrest c rfl]

/-- Digits that may stand in front of the point: a lone zero, or digits that do not start with
one. -/
structure IsWhole (ds : List Char) : Prop where
  digits : ∀ c ∈ ds, c.isDigit = true
  ne_nil : ds ≠ []
  lone : ds.head? = some '0' → ds = ['0']

theorem isWhole_toDigits (n : ℕ) : IsWhole (Nat.toDigits 10 n) where
  digits _ := Decimal.isDigit_of_mem
  ne_nil := Nat.toDigits_ne_nil
  lone h := by
    rcases Nat.eq_zero_or_pos n with rfl | hn
    · rfl
    · exact absurd h (Decimal.head?_toDigits_ne hn)

theorem whole?_append {ds : List Char} (hds : IsWhole ds)
    (hrest : ∀ c ∈ rest.head?, c.isDigit = false) : whole? (ds ++ rest) = some (ds, rest) := by
  obtain ⟨d, ds, rfl⟩ := List.exists_cons_of_ne_nil hds.ne_nil
  have hd : d.isDigit = true := hds.digits d List.mem_cons_self
  by_cases hzero : d = '0'
  · subst hzero
    obtain rfl := List.cons_eq_cons.mp (hds.lone rfl) |>.2
    rfl
  · have hmore : ∀ c ∈ ds, c.isDigit = true := fun c hc => hds.digits c (List.mem_cons_of_mem _ hc)
    rw [List.cons_append, whole?]
    · rw [isDigit_eq, if_pos hd, takeWhile_digits hmore hrest, dropWhile_digits hmore hrest]
    · exact fun h => hzero h

/-- A minus sign in front of a number. -/
def signChars (negative : Bool) : List Char := if negative then ['-'] else []

/-- What is read as a number without its sign starts with a digit. -/
theorem exists_digit_of_unsigned {negative : Bool} {cs : List Char} {r : Value × List Char}
    (h : unsigned negative cs = .ok r) : ∃ d tail, cs = d :: tail ∧ d.isDigit = true := by
  cases cs with
  | nil => cases h
  | cons d tail =>
      refine ⟨d, tail, rfl, ?_⟩
      by_contra hd
      have hzero : d ≠ '0' := by
        rintro rfl
        exact hd rfl
      rw [unsigned, whole?, isDigit_eq, if_neg hd] at h
      · cases h
      · exact fun heq => hzero heq

theorem number_signChars {negative : Bool} {cs : List Char} {r : Value × List Char}
    (h : unsigned negative cs = .ok r) : number (signChars negative ++ cs) = .ok r := by
  cases negative with
  | true => exact h
  | false =>
      obtain ⟨d, tail, rfl, hd⟩ := exists_digit_of_unsigned h
      change number (d :: tail) = .ok r
      rw [number]
      · exact h
      · rintro rest ⟨rfl, -⟩
        cases hd

theorem Ends.not_isDigit (h : Ends rest) : ∀ c ∈ rest.head?, c.isDigit = false := by
  intro c hc
  rcases h c hc with rfl | rfl <;> rfl

theorem Ends.fraction?_eq (h : Ends rest) : fraction? rest = none := by
  cases rest with
  | nil => rfl
  | cons c rest => rcases h c rfl with rfl | rfl <;> rfl

theorem Ends.exponent?_eq (h : Ends rest) : exponent? rest = none := by
  cases rest with
  | nil => rfl
  | cons c rest => rcases h c rfl with rfl | rfl <;> rfl

theorem toList_intText (n : ℤ) :
    (Decimal.intText n).toList = signChars (decide (n < 0)) ++ Nat.toDigits 10 n.natAbs := by
  rw [Decimal.intText, String.toList_append, Decimal.natText, String.toList_ofList, signChars]
  by_cases h : n < 0 <;> simp [h]

theorem signed_natAbs (n : ℤ) : Decimal.signed (decide (n < 0)) n.natAbs = n := by
  rw [Decimal.signed]
  by_cases h : n < 0
  · rw [decide_eq_true h, if_pos rfl]
    omega
  · rw [decide_eq_false h, if_neg Bool.false_ne_true]
    omega

theorem number_intText {n : ℤ} (hn : n.natAbs < pow10 Decimal.maxDigits) (hrest : Ends rest) :
    number ((Decimal.intText n).toList ++ rest) = .ok (.int n, rest) := by
  have hwhole := isWhole_toDigits n.natAbs
  rw [Decimal.pow10_eq] at hn
  have hlength : (Nat.toDigits 10 n.natAbs).length ≤ Decimal.maxDigits :=
    (Nat.length_toDigits_le_iff (by decide) (by decide)).mpr hn
  rw [toList_intText, List.append_assoc]
  apply number_signChars
  rw [unsigned, whole?_append hwhole hrest.not_isDigit]
  simp only [hrest.fraction?_eq, hrest.exponent?_eq, wholeNumber, if_pos hlength, digitsOf_eq,
    Nat.ofDigitChars_ten_toDigits, signed_natAbs]
  rfl

theorem unsigned_point (negative : Bool) {whole places tail : List Char} (hwhole : IsWhole whole)
    (hplaces : ∀ c ∈ places, c.isDigit = true) (hsome : places ≠ [])
    (htail : ∀ c ∈ tail.head?, c.isDigit = false) :
    unsigned negative (whole ++ '.' :: (places ++ tail)) =
      .ok (.float (Binary64.ofDecimal negative (digitsOf (whole ++ places))
        (((exponent? tail).getD (0, tail)).1 - places.length)),
        ((exponent? tail).getD (0, tail)).2) := by
  obtain ⟨d, ds, rfl⟩ := List.exists_cons_of_ne_nil hsome
  have hd : isDigit d = true := hplaces d List.mem_cons_self
  have hds : ∀ c ∈ ds, c.isDigit = true := fun c hc => hplaces c (List.mem_cons_of_mem _ hc)
  have hfraction : fraction? ('.' :: (d :: ds ++ tail)) = some (d :: ds, tail) := by
    rw [List.cons_append, fraction?, if_pos hd, isDigit_eq, takeWhile_digits hds htail,
      dropWhile_digits hds htail]
  rw [unsigned, whole?_append hwhole (by rintro c ⟨⟩; rfl)]
  simp only [hfraction]

theorem unsigned_exponent (negative : Bool) {whole mark tail : List Char} {exponent : ℤ}
    (hwhole : IsWhole whole) (hmark : exponent? ('e' :: mark) = some (exponent, tail)) :
    unsigned negative (whole ++ 'e' :: mark) =
      .ok (.float (Binary64.ofDecimal negative (digitsOf whole) exponent), tail) := by
  have hfraction : fraction? ('e' :: mark) = none := rfl
  rw [unsigned, whole?_append hwhole (by rintro c ⟨⟩; rfl)]
  simp only [hfraction, hmark]

theorem exponent?_exponentText (exponent : ℤ) (hrest : Ends rest) :
    exponent? ((Decimal.exponentText exponent).toList ++ rest) = some (exponent, rest) := by
  have htext : (Decimal.exponentText exponent).toList =
      'e' :: (if exponent < 0 then '-' else '+') :: Decimal.zeroPadded 2 exponent.natAbs := by
    rw [Decimal.exponentText]
    split <;> simp
  have hsign (ds : List Char) : Decimal.signOf ((if exponent < 0 then '-' else '+') :: ds) =
      (decide (exponent < 0), ds) := by
    by_cases h : exponent < 0
    · rw [if_pos h, decide_eq_true h]
      rfl
    · rw [if_neg h, decide_eq_false h]
      rfl
  have hsome : (Decimal.zeroPadded 2 exponent.natAbs).isEmpty = false := by
    have hlength := Decimal.length_zeroPadded 2 exponent.natAbs
    rw [List.isEmpty_eq_false_iff]
    intro h
    rw [h, List.length_nil] at hlength
    omega
  have hdigits : ∀ c ∈ Decimal.zeroPadded 2 exponent.natAbs, c.isDigit = true :=
    fun _ => Decimal.isDigit_of_mem_zeroPadded
  rw [htext, List.cons_append, List.cons_append, exponent?, if_pos (.inl rfl), hsign, isDigit_eq]
  simp only [takeWhile_digits hdigits hrest.not_isDigit, dropWhile_digits hdigits hrest.not_isDigit,
    hsome, digitsOf_eq, Decimal.ofDigitChars_zeroPadded, signed_natAbs]
  rfl

/-- The first digit of a number is its own whole part. -/
theorem isWhole_head {n : ℕ} (hn : 0 < n) {d : Char} {ds : List Char}
    (hdigits : Nat.toDigits 10 n = d :: ds) : IsWhole [d] where
  digits c hc := by
    obtain rfl := List.mem_singleton.mp hc
    exact Decimal.isDigit_of_mem (hdigits ▸ List.mem_cons_self)
  ne_nil := List.cons_ne_nil d []
  lone h := by
    have hhead := Decimal.head?_toDigits_ne hn
    rw [hdigits] at hhead
    exact absurd h hhead

/-- In front of the last digits of a number, filled up with zeros, stands a whole part. -/
theorem isWhole_take {places n : ℕ} (hn : 0 < n) :
    IsWhole ((Decimal.zeroPadded (places + 1) n).take
      ((Decimal.zeroPadded (places + 1) n).length - places)) where
  digits c hc := Decimal.isDigit_of_mem_zeroPadded (List.mem_of_mem_take hc)
  ne_nil := by
    have hlength := Decimal.length_zeroPadded (places + 1) n
    rw [← List.length_pos_iff, List.length_take]
    omega
  lone h := by
    have hlength := Decimal.length_zeroPadded (places + 1) n
    rcases le_or_gt (Nat.toDigits 10 n).length places with hshort | hlong
    · obtain ⟨count, hcount⟩ : ∃ count, places + 1 - (Nat.toDigits 10 n).length = count + 1 :=
        ⟨places - (Nat.toDigits 10 n).length, by omega⟩
      have hone : (Decimal.zeroPadded (places + 1) n).length - places = 1 := by omega
      rw [hone]
      simp [Decimal.zeroPadded, hcount, List.replicate_succ]
    · have hnone : places + 1 - (Nat.toDigits 10 n).length = 0 := by omega
      have hplain : Decimal.zeroPadded (places + 1) n = Nat.toDigits 10 n := by
        simp [Decimal.zeroPadded, hnone]
      obtain ⟨count, hcount⟩ : ∃ count, (Nat.toDigits 10 n).length - places = count + 1 :=
        ⟨(Nat.toDigits 10 n).length - places - 1, by omega⟩
      have hhead := Decimal.head?_toDigits_ne hn
      rw [hplain, hcount, List.head?_take, if_neg (Nat.succ_ne_zero count)] at h
      exact absurd h hhead

section Layout

variable {b : Binary64} {digits : ℕ} {exponent : ℤ}

/-- Digits in front of the point, with a zero behind it. -/
theorem unsigned_natText (hb : b.Canonical) (hpos : 0 < b.mantissa) (hexponent : 0 ≤ exponent)
    (hsize : digits * pow10 exponent.toNat < 10 ^ 16) (hcovers : b.Covers (digits * 10 ^ exponent))
    (negative : Bool) (hrest : Ends rest) :
    unsigned negative
        ((Decimal.natText (digits * pow10 exponent.toNat) ++ ".0").toList ++ rest) =
      .ok (.float (Binary64.pack negative b.mantissa b.exponent), rest) := by
  lift exponent to ℕ using hexponent
  rw [Int.toNat_natCast] at hsize ⊢
  generalize hn : digits * pow10 exponent = n at hsize
  have htext : (Decimal.natText n ++ ".0").toList ++ rest =
      Nat.toDigits 10 n ++ '.' :: (['0'] ++ rest) := by
    simp [Decimal.natText]
  have hvalue : digitsOf (Nat.toDigits 10 n ++ ['0']) = 10 * n := by
    rw [digitsOf_eq, Nat.ofDigitChars_append, Nat.ofDigitChars_ten_toDigits]
    rfl
  have hshift : b.Covers ((10 * n : ℕ) * 10 ^ (-1 : ℤ)) := by
    have hsame : ((10 * n : ℕ) : ℚ) * 10 ^ (-1 : ℤ) = digits * 10 ^ (exponent : ℤ) := by
      rw [← hn, Decimal.pow10_eq, zpow_neg_one, zpow_natCast]
      push_cast
      ring
    rw [hsame]
    exact hcovers
  have hbound : 10 * n < 2 ^ 64 := by
    norm_num at hsize ⊢
    omega
  have hzero : ∀ c ∈ ['0'], c.isDigit = true := List.forall_mem_singleton.mpr rfl
  rw [htext, unsigned_point negative (isWhole_toDigits n) hzero (List.cons_ne_nil '0' [])
    hrest.not_isDigit, hrest.exponent?_eq, hvalue]
  change Except.ok (Value.float (Binary64.ofDecimal negative (10 * n) (-1)), rest) = _
  rw [Binary64.ofDecimal_eq hb hpos hbound hshift]

/-- Digits on both sides of the point, or behind it. -/
theorem unsigned_placed (hb : b.Canonical) (hpos : 0 < b.mantissa) (hexponent : exponent < 0)
    (hsome : 0 < digits) (hdigits : digits < 2 ^ 64) (hcovers : b.Covers (digits * 10 ^ exponent))
    (negative : Bool) (hrest : Ends rest) :
    unsigned negative ((Decimal.placed (-exponent).toNat digits).toList ++ rest) =
      .ok (.float (Binary64.pack negative b.mantissa b.exponent), rest) := by
  obtain ⟨places, rfl⟩ : ∃ places : ℕ, exponent = -places := ⟨(-exponent).toNat, by omega⟩
  rw [neg_neg, Int.toNat_natCast]
  have hplaces : places ≠ 0 := by omega
  have hlength := Decimal.length_zeroPadded (places + 1) digits
  set chars := Decimal.zeroPadded (places + 1) digits with hchars
  have htext : (Decimal.placed places digits).toList ++ rest =
      chars.take (chars.length - places) ++
        '.' :: (chars.drop (chars.length - places) ++ rest) := by
    simp [Decimal.placed, hplaces, ← hchars]
  have hdrop : (chars.drop (chars.length - places)).length = places := by
    rw [List.length_drop]
    omega
  have hbehind : ∀ c ∈ chars.drop (chars.length - places), c.isDigit = true :=
    fun c hc => Decimal.isDigit_of_mem_zeroPadded (List.mem_of_mem_drop hc)
  have hne : chars.drop (chars.length - places) ≠ [] := by
    rw [← List.length_pos_iff]
    omega
  rw [htext, unsigned_point negative (isWhole_take hsome) hbehind hne hrest.not_isDigit,
    hrest.exponent?_eq, List.take_append_drop, hdrop, digitsOf_eq,
    Decimal.ofDigitChars_zeroPadded]
  change Except.ok (Value.float (Binary64.ofDecimal negative digits (0 - places)), rest) = _
  rw [zero_sub, Binary64.ofDecimal_eq hb hpos hdigits hcovers]

/-- Scientific notation, with a point if there is more than one digit. -/
theorem unsigned_pointed (hb : b.Canonical) (hpos : 0 < b.mantissa) (hsome : 0 < digits)
    (hdigits : digits < 2 ^ 64) (hcovers : b.Covers (digits * 10 ^ exponent)) (negative : Bool)
    (hrest : Ends rest) :
    unsigned negative ((String.ofList (Decimal.pointed (Nat.toDigits 10 digits)) ++
        Decimal.exponentText (exponent + (Nat.toDigits 10 digits).length - 1)).toList ++ rest) =
      .ok (.float (Binary64.pack negative b.mantissa b.exponent), rest) := by
  have hread := Binary64.ofDecimal_eq hb hpos hdigits hcovers negative
  have hvalue : digitsOf (Nat.toDigits 10 digits) = digits := Nat.ofDigitChars_ten_toDigits
  have hexponent := exponent?_exponentText (exponent + (Nat.toDigits 10 digits).length - 1) hrest
  obtain ⟨mark, hmark⟩ : ∃ mark, (Decimal.exponentText
      (exponent + (Nat.toDigits 10 digits).length - 1)).toList ++ rest = 'e' :: mark := by
    simp [Decimal.exponentText]
  rw [hmark] at hexponent
  rw [String.toList_append, String.toList_ofList, List.append_assoc, hmark]
  cases hds : Nat.toDigits 10 digits with
  | nil => exact absurd hds Nat.toDigits_ne_nil
  | cons d ds =>
      have hwhole := isWhole_head hsome hds
      rw [hds] at hvalue hexponent
      cases ds with
      | nil =>
          rw [Decimal.pointed, unsigned_exponent negative hwhole hexponent, hvalue,
            List.length_singleton, Nat.cast_one, add_sub_cancel_right, hread]
      | cons d' ds =>
          have hbehind : ∀ c ∈ d' :: ds, c.isDigit = true := by
            intro c hc
            exact Decimal.isDigit_of_mem (hds ▸ List.mem_cons_of_mem d hc)
          have hmarked : ∀ c ∈ ('e' :: mark).head?, c.isDigit = false := by
            rintro c ⟨⟩
            rfl
          change unsigned negative ([d] ++ '.' :: (d' :: ds ++ 'e' :: mark)) = _
          rw [unsigned_point negative hwhole hbehind (List.cons_ne_nil d' ds) hmarked, hexponent,
            List.singleton_append, hvalue]
          have hlast : exponent + ((d :: d' :: ds).length : ℤ) - 1 - (d' :: ds).length =
              exponent := by
            rw [List.length_cons (a := d)]
            push_cast
            ring
          dsimp only [Option.getD_some]
          rw [hlast, hread]

/-- A double that digits round to is read from them, whatever the notation. -/
theorem unsigned_layout (hb : b.Canonical) (hpos : 0 < b.mantissa) (hdigits : digits < 2 ^ 64)
    (hcovers : b.Covers (digits * 10 ^ exponent)) (negative : Bool) (hrest : Ends rest) :
    unsigned negative ((Decimal.layout digits exponent).toList ++ rest) =
      .ok (.float (Binary64.pack negative b.mantissa b.exponent), rest) := by
  have hsome := hcovers.digits_pos hb hpos
  simp only [Decimal.layout]
  split
  next hpositional =>
    split
    next hwhole =>
      have hsize : digits * pow10 exponent.toNat < 10 ^ 16 := by
        rw [Decimal.pow10_eq]
        calc digits * 10 ^ exponent.toNat
            < 10 ^ (Nat.toDigits 10 digits).length * 10 ^ exponent.toNat :=
              Nat.mul_lt_mul_of_pos_right (Decimal.lt_pow_length digits) (Nat.pow_pos (by decide))
          _ = 10 ^ ((Nat.toDigits 10 digits).length + exponent.toNat) := (pow_add _ _ _).symm
          _ ≤ 10 ^ 16 := Nat.pow_le_pow_right (by decide) (by omega)
      exact unsigned_natText hb hpos hwhole hsize hcovers negative hrest
    next hfraction =>
      exact unsigned_placed hb hpos (by omega) hsome hdigits hcovers negative hrest
  next => exact unsigned_pointed hb hpos hsome hdigits hcovers negative hrest

end Layout

/-- A finite double is read from its shortest decimal. -/
theorem number_shortest {x : Float} (hnan : x.isNaN = false) (hinf : x.isInf = false)
    (hrest : Ends rest) : number ((Decimal.shortest x).toList ++ rest) = .ok (.float x, rest) := by
  have hcanonical := Binary64.ofFloat_canonical hnan hinf
  have hpack := Binary64.pack_ofFloat hnan hinf
  have htext (s : String) : ((if (Binary64.ofFloat x).negative = true then "-" else "") ++ s).toList ++
      rest = signChars (Binary64.ofFloat x).negative ++ (s.toList ++ rest) := by
    rw [String.toList_append, List.append_assoc, signChars]
    split <;> rfl
  simp only [Decimal.shortest, Decimal.written, hnan, hinf, Bool.false_eq_true, if_false, htext]
  apply number_signChars
  by_cases hzero : (Binary64.ofFloat x).mantissa = 0
  · have hexponent : (Binary64.ofFloat x).exponent = -1074 :=
      hcanonical.normal.resolve_left (by omega)
    have hdigit : ∀ c ∈ ['0'], c.isDigit = true := List.forall_mem_singleton.mpr rfl
    rw [hzero, hexponent] at hpack
    rw [if_pos hzero]
    change unsigned _ (Nat.toDigits 10 0 ++ '.' :: (['0'] ++ rest)) = _
    rw [unsigned_point _ (isWhole_toDigits 0) hdigit (List.cons_ne_nil '0' []) hrest.not_isDigit,
      hrest.exponent?_eq]
    change Except.ok (Value.float (Binary64.ofDecimal _ 0 (-1)), rest) = _
    rw [Binary64.ofDecimal, if_pos (.inl rfl), hpack]
  · have hpos := Nat.pos_of_ne_zero hzero
    obtain ⟨hcovers, hdigits⟩ := Binary64.covers_shortest hcanonical hpos
    rw [if_neg hzero, unsigned_layout hcanonical hpos hdigits hcovers _ hrest, hpack]

/-- What is read as a number starts with a digit, or with a minus sign and a digit. -/
theorem exists_digit_of_number {cs : List Char} {r : Value × List Char} (h : number cs = .ok r) :
    ∃ d tail, (cs = d :: tail ∨ cs = '-' :: d :: tail) ∧ d.isDigit = true := by
  cases cs with
  | nil => cases h
  | cons c rest =>
      by_cases hsign : c = '-'
      · subst hsign
        obtain ⟨d, tail, rfl, hd⟩ := exists_digit_of_unsigned (h : unsigned true rest = .ok r)
        exact ⟨d, tail, .inr rfl, hd⟩
      · rw [number] at h
        · obtain ⟨d, tail, hcs, hd⟩ := exists_digit_of_unsigned h
          exact ⟨d, tail, .inl hcs, hd⟩
        · rintro _ ⟨rfl, -⟩
          exact hsign rfl

theorem isPrefixOf?_of_ne {c d : Char} (h : c ≠ d) (word tail : List Char) :
    (c :: word).isPrefixOf? (d :: tail) = none := by
  rw [List.isPrefixOf?, if_neg]
  simpa using h

theorem word?_of_number {cs : List Char} {r : Value × List Char} (h : number cs = .ok r) :
    word? cs = none := by
  obtain ⟨d, tail, hcs, hd⟩ := exists_digit_of_number h
  have hne {c : Char} (hc : c.isDigit = false) : c ≠ d := by
    rintro rfl
    rw [hd] at hc
    cases hc
  rw [word?, List.findSome?_eq_none_iff]
  rintro ⟨word, value⟩ hword
  rw [Option.map_eq_none_iff]
  rcases hcs with rfl | rfl
  · fin_cases hword <;> exact isPrefixOf?_of_ne (hne rfl) _ _
  · have hminus : ∀ word : List Char, ('-' :: word).isPrefixOf? ('-' :: d :: tail) =
        word.isPrefixOf? (d :: tail) := fun word => rfl
    fin_cases hword
    · exact isPrefixOf?_of_ne (by decide) _ _
    · exact isPrefixOf?_of_ne (by decide) _ _
    · exact isPrefixOf?_of_ne (by decide) _ _
    · exact isPrefixOf?_of_ne (by decide) _ _
    · exact isPrefixOf?_of_ne (by decide) _ _
    · exact (hminus _).trans (isPrefixOf?_of_ne (hne rfl) _ _)

theorem valueAt_of_number {cs : List Char} {r : Value × List Char} (h : number cs = .ok r)
    (fuel levels : ℕ) : valueAt (fuel + 1) levels cs = .ok r := by
  have hword := word?_of_number h
  have hhead {c : Char} {rest : List Char} (hcs : cs = c :: rest) : c.isDigit = true ∨ c = '-' := by
    obtain ⟨d, tail, hnumber | hnumber, hd⟩ := exists_digit_of_number h
    · obtain ⟨rfl, -⟩ := List.cons_eq_cons.mp (hcs.symm.trans hnumber)
      exact .inl hd
    · exact .inr (List.cons_eq_cons.mp (hcs.symm.trans hnumber)).1
  have hother {c : Char} (hdigit : c.isDigit = false) (hsign : c ≠ '-') (rest : List Char) :
      cs ≠ c :: rest := by
    intro hcs
    rcases hhead hcs with hd | hminus
    · rw [hdigit] at hd
      cases hd
    · exact hsign hminus
  rw [valueAt]
  · rw [hword]
    exact h
  · exact fun rest => hother rfl (by decide) rest
  · exact fun rest hcs _ => hother rfl (by decide) rest hcs
  · exact fun rest hcs _ => hother rfl (by decide) rest hcs
  · exact fun rest _ hcs _ => hother rfl (by decide) rest hcs
  · exact fun rest _ hcs _ => hother rfl (by decide) rest hcs

end SparseWeights.Json
