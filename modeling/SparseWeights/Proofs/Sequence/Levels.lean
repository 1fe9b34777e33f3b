import SparseWeights.Proofs.Binary.Special
import SparseWeights.Proofs.Sequence.RunningMinimum

/-!
Levels in doubles. A level lies between one half and one, and it is one where the share that
is taken from one is too small. If a level of any rank is one, then so is that of the first
rank, as its share is the least. So the quantiles are all finite if the first one is.
-/

namespace SparseWeights.Sequence

open Binary

/-- A quantile function of doubles that is finite between zero and one, and infinite at one. -/
structure IsQuantile (quantile : Float → Float) : Prop where
  isFinite : ∀ p, 0 < p → p < 1 → (quantile p).isFinite = true
  infinite : ∀ p, 1 ≤ p → p ≤ 1 → quantile p = 1 / 0

theorem number_two : (1 + 1 : Float).isFinite = true ∧ number (1 + 1) = 2 := by
  have hsum := isRounded_add (x := 1) (y := 1) rfl rfl
  rw [number_one, one_add_one_eq_two] at hsum
  obtain ⟨htwo, hnumber⟩ := number_ofNat (n := 2) (by decide)
  exact hsum.number_eq htwo (by rw [hnumber]; rfl)

theorem number_half : number 0.5 = 1 / 2 := by
  have hhalf : (0.5 : Float).toModel.unpack = .finite .positive (2 ^ 52) (-53) (by decide) := rfl
  rw [number, hhalf, value, Float.Model.UnpackedFloat.Sign.apply, Nat.cast_pow, Nat.cast_ofNat]
  norm_num

/-- A level for the ranks up to `count` of a number of tests. -/
structure Ranked (q size : Float) (count : ℕ) : Prop where
  isFinite_level : q.isFinite = true
  pos : 0 < number q
  lt_one : number q < 1
  isFinite_size : size.isFinite = true
  count_le : (count : ℚ) ≤ number size
  size_le : number size ≤ 2 ^ 51

namespace Ranked

variable {q size : Float} {count rank : ℕ} (h : Ranked q size count)

include h

theorem count_lt : count < 2 ^ 52 := by
  have hcount : (count : ℚ) ≤ 2 ^ 51 := h.count_le.trans h.size_le
  have hcast : count ≤ 2 ^ 51 := by exact_mod_cast hcount
  omega

theorem twice_spec : ((1 + 1) * size).isFinite = true ∧
    2 * (count : ℚ) ≤ number ((1 + 1) * size) := by
  obtain ⟨htwo, hnumber⟩ := number_two
  have hproduct := isRounded_mul htwo h.isFinite_size
  rw [hnumber] at hproduct
  obtain ⟨hleast, hleastNumber⟩ := number_ofNat (n := 2 * count) (by have := h.count_lt; omega)
  obtain ⟨hgreatest, hgreatestNumber⟩ := number_ofNat (n := 2 ^ 52) (by decide)
  have hlow : number (Float.ofNat (2 * count)) ≤ 2 * number size := by
    rw [hleastNumber]
    push_cast
    linarith [h.count_le]
  have hhigh : 2 * number size ≤ number (Float.ofNat (2 ^ 52)) := by
    rw [hgreatestNumber]
    push_cast
    linarith [h.size_le]
  obtain ⟨hfinite, hge, _⟩ := hproduct.between hleast hgreatest hlow hhigh
  rw [hleastNumber] at hge
  push_cast at hge
  exact ⟨hfinite, hge⟩

variable (hfirst : 1 ≤ rank) (hrank : rank ≤ count)

include hfirst hrank

theorem product_spec : (Float.ofNat rank * q).isFinite = true ∧
    number q ≤ number (Float.ofNat rank * q) ∧ number (Float.ofNat rank * q) ≤ rank := by
  obtain ⟨hindex, hnumber⟩ := number_ofNat (n := rank) (by have := h.count_lt; omega)
  have hproduct := isRounded_mul hindex h.isFinite_level
  rw [hnumber] at hproduct
  have hcast : (1 : ℚ) ≤ rank := by exact_mod_cast hfirst
  have hbetween := hproduct.between h.isFinite_level hindex (by nlinarith [h.pos])
    (by rw [hnumber]; nlinarith [h.lt_one])
  rwa [hnumber] at hbetween

/-- What a level leaves of one is at most one half. -/
theorem tail_spec :
    IsRounded (number (Float.ofNat rank * q) / number ((1 + 1) * size))
        (Float.ofNat rank * q / ((1 + 1) * size)) ∧
      (Float.ofNat rank * q / ((1 + 1) * size)).isFinite = true ∧
      0 ≤ number (Float.ofNat rank * q / ((1 + 1) * size)) ∧
      number (Float.ofNat rank * q / ((1 + 1) * size)) ≤ 1 / 2 := by
  obtain ⟨hproduct, hge, hle⟩ := h.product_spec hfirst hrank
  obtain ⟨htwice, htwiceLow⟩ := h.twice_spec
  have hone : (1 : ℚ) ≤ rank := by exact_mod_cast hfirst
  have hcount : (rank : ℚ) ≤ count := by exact_mod_cast hrank
  have htwicePos : 0 < number ((1 + 1) * size) := by linarith
  have hquotient := isRounded_div hproduct htwice htwicePos.ne'
  have hbetween := hquotient.between isFinite_zero (z := 0.5) rfl
    (by rw [number_zero]; exact div_nonneg (h.pos.le.trans hge) htwicePos.le)
    (by rw [number_half, div_le_iff₀ htwicePos]; linarith)
  rw [number_zero, number_half] at hbetween
  exact ⟨hquotient, hbetween⟩

theorem level_spec : (level q size rank).isFinite = true ∧
    1 / 2 ≤ number (level q size rank) ∧ number (level q size rank) ≤ 1 := by
  obtain ⟨_, htail, hnonneg, hhalf⟩ := h.tail_spec hfirst hrank
  have hbetween := (isRounded_sub (x := 1) rfl htail).between (y := 0.5) rfl (z := 1) rfl
    (by rw [number_half, number_one]; linarith) (by rw [number_one]; linarith)
  rwa [number_half, number_one] at hbetween

/-- The first rank leaves no more than any other one. -/
theorem tail_one_le : number (Float.ofNat 1 * q / ((1 + 1) * size)) ≤
    number (Float.ofNat rank * q / ((1 + 1) * size)) := by
  obtain ⟨hproduct, hge, _⟩ := h.product_spec hfirst hrank
  obtain ⟨hfirstProduct, hfirstGe, _⟩ := h.product_spec le_rfl (hfirst.trans hrank)
  obtain ⟨hrounded, htail, _⟩ := h.tail_spec hfirst hrank
  obtain ⟨hfirstRounded, hfirstTail, _⟩ := h.tail_spec le_rfl (hfirst.trans hrank)
  obtain ⟨_, htwiceLow⟩ := h.twice_spec
  obtain ⟨hindex, hnumber⟩ := number_ofNat (n := 1) (by decide)
  have hexact := isRounded_mul hindex h.isFinite_level
  rw [hnumber, Nat.cast_one, one_mul] at hexact
  rw [← (hexact.number_eq h.isFinite_level rfl).2] at hge
  rcases hge.eq_or_lt with heq | hlt
  · have hne : number (Float.ofNat 1 * q) ≠ 0 := (h.pos.trans_le hfirstGe).ne'
    rw [eq_of_number_eq hfirstProduct hproduct heq hne]
  · have hone : (1 : ℚ) ≤ count := by exact_mod_cast hfirst.trans hrank
    have htwicePos : 0 < number ((1 + 1) * size) := by linarith
    exact (le_iff_number hfirstTail htail).mp
      (hfirstRounded.mono hrounded (div_lt_div_of_pos_right hlt htwicePos))

/-- The level of the first rank is the largest one, so it is one if any level is. -/
theorem one_le_level_one (hone : 1 ≤ level q size rank) : 1 ≤ level q size 1 := by
  obtain ⟨_, htail, _⟩ := h.tail_spec hfirst hrank
  obtain ⟨_, hfirstTail, _⟩ := h.tail_spec le_rfl (hfirst.trans hrank)
  have hrounded := isRounded_sub (x := 1) rfl htail
  have hfirstRounded := isRounded_sub (x := 1) rfl hfirstTail
  rcases (h.tail_one_le hfirst hrank).eq_or_lt with heq | hlt
  · by_cases hzero : number (Float.ofNat 1 * q / ((1 + 1) * size)) = 0
    · rw [hzero, sub_zero] at hfirstRounded
      exact hfirstRounded.le rfl le_rfl
    · have hsame := eq_of_number_eq hfirstTail htail heq hzero
      change 1 ≤ 1 - Float.ofNat 1 * q / ((1 + 1) * size)
      rw [hsame]
      exact hone
  · exact le_chain hone (hrounded.mono hfirstRounded (by linarith))

end Ranked

/-- The quantile of the first rank, which the others are scaled by. -/
def topQuantile (quantile : Float → Float) (q size : Float) : Float :=
  Scalar.maxNaN (quantile (level q size 1)) 0

theorem maxNaN_zero_spec {x : Float} (hx : x.isFinite = true) :
    (Scalar.maxNaN x 0).isFinite = true ∧ 0 ≤ Scalar.maxNaN x 0 := by
  have hnan : ¬Scalar.isNaN x = true := by
    simpa [Scalar.isNaN] using le_self hx
  rw [Scalar.maxNaN]
  by_cases hle : 0 ≤ x
  · rw [if_pos (.inl hle)]
    exact ⟨hx, hle⟩
  · rw [if_neg (not_or.mpr ⟨hle, hnan⟩)]
    exact ⟨isFinite_zero, le_self isFinite_zero⟩

variable {quantile : Float → Float} {q size first : Float} {count : ℕ}

/-- If the quantile of the first rank is finite, then they all are. -/
theorem quantiles_spec (hquantile : IsQuantile quantile) (h : Ranked q size count)
    (htop : (topQuantile quantile q size).isFinite = true) {x : Float}
    (hx : x ∈ quantiles quantile q size count) : x.isFinite = true ∧ 0 ≤ x := by
  obtain ⟨i, hi, rfl⟩ := List.mem_map.mp hx
  have hrank : i + 1 ≤ count := List.mem_range.mp hi
  obtain ⟨hlevel, hlow, _⟩ := h.level_spec (Nat.le_add_left 1 i) hrank
  by_cases hone : 1 ≤ level q size (i + 1)
  · obtain ⟨hfirst, _, hhigh⟩ := h.level_spec le_rfl ((Nat.le_add_left 1 i).trans hrank)
    have hpole := hquantile.infinite (level q size 1)
      (h.one_le_level_one (Nat.le_add_left 1 i) hrank hone)
      ((le_iff_number hfirst rfl).mpr (hhigh.trans number_one.ge))
    rw [topQuantile, hpole] at htop
    exact absurd htop (by decide)
  · refine maxNaN_zero_spec (hquantile.isFinite _ ?_ ?_)
    · exact (pos_iff hlevel).mpr (by linarith)
    · rwa [← not_lt_iff hlevel rfl, not_not] at hone

theorem quantiles_eq_cons (quantile : Float → Float) (q size : Float) (hcount : 0 < count) :
    ∃ rest, quantiles quantile q size count = topQuantile quantile q size :: rest := by
  obtain ⟨k, rfl⟩ := Nat.exists_eq_succ_of_ne_zero hcount.ne'
  rw [quantiles, List.range_succ_eq_map, List.map_cons]
  exact ⟨_, rfl⟩

/-- Scaled quantiles are not below zero, provided that the first one is finite after scaling. -/
theorem scaled_nonneg (hquantile : IsQuantile quantile) (h : Ranked q size count)
    (hnonneg : first.isFinite = true → 0 ≤ first) (hpos : 0 < topQuantile quantile q size)
    (hfinite : (first * topQuantile quantile q size / topQuantile quantile q size).isFinite = true)
    {x : Float} (hx : x ∈ quantiles quantile q size count) :
    0 ≤ first * x / topQuantile quantile q size := by
  obtain ⟨hfirst, htop⟩ := isFinite_of_mul (isFinite_of_div hfinite)
  obtain ⟨hentry, hentryNonneg⟩ := quantiles_spec hquantile h htop hx
  refine quotient_nonneg ((isRounded_mul hfirst hentry).le isFinite_zero ?_) htop hpos
  rw [number_zero]
  exact mul_nonneg ((nonneg_iff hfirst).mp (hnonneg hfirst)) ((nonneg_iff hentry).mp hentryNonneg)

end SparseWeights.Sequence
