import SparseWeights.Proofs.Penalty.Ball
import SparseWeights.Sequence.Basic

/-!
Sequences in exact arithmetic. Every level that a quantile is taken at lies above one half
and below one, so that with a quantile function that increases there from zero on, all
quantiles are positive and they fall from rank to rank. Entries in equal steps fall from
bound to bound. Both are therefore accepted as factors of a sorted penalty as they are, and
the running minimum does not change them.
-/

namespace SparseWeights

/-- Numbers that fall and are not negative are accepted as factors. -/
theorem PenaltySpec.ofFactors_eq_ok {lam : List ℝ} (hne : lam ≠ [])
    (hfalls : lam.Pairwise (· ≥ ·)) (hnonneg : ∀ x ∈ lam, 0 ≤ x) :
    ofFactors lam (some lam.length) = .ok (.sortedL1 lam) := by
  have hnegative : (lam.any fun x => decide (x < 0)) = false := by
    simpa using hnonneg
  simp [ofFactors, hne, hnegative, (Penalty.ascends_eq_false_iff lam).mpr hfalls]

namespace Sequence

/-- The entries of a sequence before the running minimum is taken. -/
def entries {α : Type} [Scalar α] (quantile : α → α) (n : Nat) (first last : α) :
    Shape α → List α
  | .linear => linear first last n
  | .quantile q => (scaled? first (quantiles quantile q (Scalar.ofNat n) n)).getD
      (List.replicate n 0)

/-- Whether the level of a shape, if it has one, is between zero and one. -/
def Shape.InRange : Shape ℝ → Prop
  | .linear => True
  | .quantile q => 0 < q ∧ q < 1

theorem runningMinFrom_of_pairwise {least : ℝ} {xs : List ℝ}
    (hfalls : (least :: xs).Pairwise (· ≥ ·)) : runningMinFrom least xs = least :: xs := by
  induction xs generalizing least with
  | nil => rfl
  | cons x rest ih =>
      obtain ⟨hleast, hrest⟩ := List.pairwise_cons.mp hfalls
      have hmin : Scalar.minNaN least x = x := by
        simp [Scalar.minNaN_eq_min, hleast x List.mem_cons_self]
      rw [runningMinFrom, hmin, ih hrest]

/-- The running minimum does not change what falls. -/
theorem runningMin_of_pairwise {xs : List ℝ} (hfalls : xs.Pairwise (· ≥ ·)) :
    runningMin xs = xs := by
  cases xs with
  | nil => rfl
  | cons x rest => exact runningMinFrom_of_pairwise hfalls

section Linear

variable {first last : ℝ} {n i : ℕ}

theorem evenStep_eq (hi : i < n) :
    evenStep first last n i = first - i * ((first - last) / (n - 1)) := by
  have hcount : ((n - 1 : ℕ) : ℝ) = n - 1 := Nat.cast_pred (by omega)
  rw [evenStep]
  simp only [Scalar.ofNat_eq_cast, hcount]
  split
  case isTrue hone =>
    obtain rfl : i = 0 := by omega
    simp
  case isFalse hone =>
    have hpos : (0 : ℝ) < n - 1 := by
      rw [← hcount]
      exact_mod_cast Nat.sub_pos_of_lt (by omega)
    split
    case isTrue hlast =>
      have hi : (i : ℝ) = n - 1 := by
        rw [← hlast]
        simp
      rw [hi]
      field_simp
      ring
    case isFalse hlast =>
      split <;>
      · field_simp
        ring

theorem linear_getElem (hi : i < (linear first last n).length) :
    (linear first last n)[i] = first - i * ((first - last) / (n - 1)) := by
  rw [linear, List.length_map, List.length_range] at hi
  simp only [linear, List.getElem_map, List.getElem_range, evenStep_eq hi]

theorem linear_falls (hle : last ≤ first) : (linear first last n).Pairwise (· ≥ ·) := by
  rw [List.pairwise_iff_getElem]
  intro i j hi hj hij
  rw [linear_getElem, linear_getElem]
  have hn : (1 : ℝ) ≤ n := by
    rw [linear, List.length_map, List.length_range] at hj
    exact_mod_cast Nat.one_le_of_lt hj
  have hstep : 0 ≤ (first - last) / ((n : ℝ) - 1) :=
    div_nonneg (sub_nonneg.mpr hle) (sub_nonneg.mpr hn)
  gcongr

theorem linear_head? (hn : 1 ≤ n) : (linear first last n).head? = some first := by
  have hlength : 0 < (linear first last n).length := by
    rwa [linear, List.length_map, List.length_range]
  rw [List.head?_eq_getElem?, List.getElem?_eq_getElem hlength, linear_getElem]
  simp

theorem linear_getLast? (hn : 2 ≤ n) : (linear first last n).getLast? = some last := by
  have hlength : (linear first last n).length = n := by simp [linear]
  have hplace : ((n - 1 : ℕ) : ℝ) = n - 1 := Nat.cast_pred (by omega)
  have hpos : (0 : ℝ) < n - 1 := by
    rw [← hplace]
    exact_mod_cast Nat.sub_pos_of_lt (by omega)
  rw [List.getLast?_eq_getElem?, hlength, List.getElem?_eq_getElem (by omega), linear_getElem,
    hplace]
  congr 1
  field_simp
  ring

theorem le_of_mem_linear (hle : last ≤ first) {x : ℝ} (hx : x ∈ linear first last n) :
    last ≤ x := by
  obtain ⟨i, hi, rfl⟩ := List.getElem_of_mem hx
  rw [linear_getElem]
  have hplace : (i : ℝ) ≤ n - 1 := by
    rw [linear, List.length_map, List.length_range] at hi
    exact le_sub_iff_add_le.mpr (by exact_mod_cast hi)
  have hshare : (i : ℝ) / (n - 1) ≤ 1 :=
    div_le_one_of_le₀ hplace ((Nat.cast_nonneg i).trans hplace)
  have hfall : (i : ℝ) / (n - 1) * (first - last) ≤ 1 * (first - last) :=
    mul_le_mul_of_nonneg_right hshare (sub_nonneg.mpr hle)
  have hswap : (i : ℝ) * ((first - last) / (n - 1)) = i / (n - 1) * (first - last) := by ring
  linarith

end Linear

section Quantiles

variable {quantile : ℝ → ℝ} {first last q : ℝ} {n i j : ℕ}

theorem level_lt (hq : 0 < q) (hn : 1 ≤ n) (hij : i < j) :
    level q (n : ℝ) j < level q n i := by
  have hsize : (0 : ℝ) < (1 + 1) * n := by positivity
  rw [level, level, Scalar.ofNat_eq_cast, Scalar.ofNat_eq_cast]
  gcongr

/-- Every level lies above one half and below one. -/
theorem level_mem (hq : 0 < q ∧ q < 1) (hi : i < n) :
    level q (n : ℝ) (i + 1) ∈ Set.Ioo (1 / 2) 1 := by
  obtain ⟨hpos, hlt⟩ := hq
  have hn : (0 : ℝ) < n := by exact_mod_cast Nat.zero_lt_of_lt hi
  have hrank : ((i + 1 : ℕ) : ℝ) ≤ n := by exact_mod_cast hi
  have hproduct : ((i + 1 : ℕ) : ℝ) * q < n := by
    calc
      ((i + 1 : ℕ) : ℝ) * q ≤ n * q := by gcongr
      _ < n := mul_lt_of_lt_one_right hn hlt
  have hshare : ((i + 1 : ℕ) : ℝ) * q / ((1 + 1) * n) < 1 / 2 := by
    rw [div_lt_iff₀ (by positivity)]
    linarith
  have hshare_pos : 0 < ((i + 1 : ℕ) : ℝ) * q / ((1 + 1) * n) := by positivity
  rw [level, Scalar.ofNat_eq_cast]
  constructor <;> linarith

variable (hmono : StrictMonoOn quantile (Set.Ioo 0 1)) (hhalf : quantile (1 / 2) = 0)
  (hq : 0 < q ∧ q < 1)

include hmono hq

theorem quantile_level_lt (hj : j < n) (hij : i < j) :
    quantile (level q n (j + 1)) < quantile (level q n (i + 1)) := by
  have hmem {k : ℕ} (hk : k < n) : level q (n : ℝ) (k + 1) ∈ Set.Ioo 0 1 :=
    Set.Ioo_subset_Ioo_left (by norm_num) (level_mem hq hk)
  exact hmono (hmem hj) (hmem (hij.trans hj)) (level_lt hq.1 (by omega) (by omega))

include hhalf

theorem quantile_level_pos (hi : i < n) : 0 < quantile (level q n (i + 1)) := by
  obtain ⟨hlow, hhigh⟩ := level_mem hq hi
  rw [← hhalf]
  exact hmono (by norm_num) ⟨by linarith, hhigh⟩ hlow

/-- All quantiles are positive: none is cut off at zero, and the first one can be divided by. -/
theorem entries_quantile (hn : 1 ≤ n) :
    entries quantile n first last (.quantile q) = (List.range n).map fun i =>
      first * quantile (level q n (i + 1)) / quantile (level q n 1) := by
  have hraw : quantiles quantile q (n : ℝ) n =
      (List.range n).map fun i => quantile (level q n (i + 1)) := by
    refine List.map_congr_left fun i hi => ?_
    have hpos := quantile_level_pos hmono hhalf hq (List.mem_range.mp hi)
    rw [Scalar.maxNaN_eq_max, max_eq_left hpos.le]
  have hrange : List.range n = 0 :: (List.range (n - 1)).map Nat.succ := by
    rw [← List.range_succ_eq_map, Nat.sub_add_cancel hn]
  have htop : 0 < quantile (level q n 1) := quantile_level_pos hmono hhalf hq hn
  rw [entries, Scalar.ofNat_eq_cast, hraw, hrange, List.map_cons, scaled?, if_pos htop]
  simp [Function.comp_def]

end Quantiles

/-- What the entries of a sequence are like before the running minimum is taken. -/
structure Falls (first : ℝ) (n : ℕ) (xs : List ℝ) : Prop where
  length_eq : xs.length = n
  head?_eq : xs.head? = some first
  pairwise : xs.Pairwise (· ≥ ·)
  nonneg : ∀ x ∈ xs, 0 ≤ x

section Generate

variable {quantile : ℝ → ℝ} {first last : ℝ} {n : ℕ} {shape : Shape ℝ}

theorem linear_spec (hn : 1 ≤ n) (hlast : 0 ≤ last) (hle : last ≤ first) :
    Falls first n (entries quantile n first last .linear) where
  length_eq := by simp [entries, linear]
  head?_eq := linear_head? hn
  pairwise := linear_falls hle
  nonneg _ hx := hlast.trans (le_of_mem_linear hle hx)

theorem quantile_spec (hmono : StrictMonoOn quantile (Set.Ioo 0 1))
    (hhalf : quantile (1 / 2) = 0) (hn : 1 ≤ n) (hfirst : 0 ≤ first) {q : ℝ}
    (hq : 0 < q ∧ q < 1) : Falls first n (entries quantile n first last (.quantile q)) := by
  have hpos {i : ℕ} (hi : i < n) := quantile_level_pos hmono hhalf hq hi
  have htop : 0 < quantile (level q n 1) := hpos hn
  rw [entries_quantile hmono hhalf hq hn]
  refine ⟨by simp, ?_, ?_, ?_⟩
  · rw [List.head?_map, List.head?_range, if_neg (by omega)]
    simp [htop.ne']
  · rw [List.pairwise_map]
    refine List.Pairwise.imp_of_mem (fun {i j} hi hj hij => ?_) (List.pairwise_lt_range)
    have hlt := quantile_level_lt hmono hq (List.mem_range.mp hj) hij
    exact div_le_div_of_nonneg_right (mul_le_mul_of_nonneg_left hlt.le hfirst) htop.le
  · intro x hx
    obtain ⟨i, hi, rfl⟩ := List.mem_map.mp hx
    exact div_nonneg (mul_nonneg hfirst (hpos (List.mem_range.mp hi)).le) htop.le

theorem entries_spec (hmono : StrictMonoOn quantile (Set.Ioo 0 1))
    (hhalf : quantile (1 / 2) = 0) (hn : 1 ≤ n) (hlast : 0 ≤ last) (hle : last ≤ first)
    (hshape : shape.InRange) : Falls first n (entries quantile n first last shape) := by
  cases shape with
  | linear => exact linear_spec hn hlast hle
  | quantile q => exact quantile_spec hmono hhalf hn (hlast.trans hle) hshape

theorem rejection?_eq_none (hlast : 0 ≤ last) (hle : last ≤ first) (hshape : shape.InRange) :
    rejection? first last shape = none := by
  have hbounds : badBounds first last = false := by
    simp [badBounds, hlast, hle, hlast.trans hle]
  cases shape with
  | linear => simp [rejection?, hbounds]
  | quantile q =>
      have hlevel : badLevel q = false := by simpa [badLevel, Shape.InRange] using hshape
      simp [rejection?, hbounds, hlevel]

theorem generate_eq (hn : 1 ≤ n) (hlast : 0 ≤ last) (hle : last ≤ first)
    (hshape : shape.InRange) :
    generate quantile n first last shape =
      .ok (runningMin (entries quantile n first last shape)) := by
  rw [generate, if_neg (by omega), rejection?_eq_none hlast hle hshape]
  cases shape <;> rfl

/-- A sequence within its bounds has as many factors as it is asked for. It starts at the first
bound; in equal steps it ends at the last one. It is accepted as the factors of a sorted penalty,
and all its entries stand as they are before the running minimum is taken. -/
theorem generate_accepted (hmono : StrictMonoOn quantile (Set.Ioo 0 1))
    (hhalf : quantile (1 / 2) = 0) (hn : 1 ≤ n) (hlast : 0 ≤ last) (hle : last ≤ first)
    (hshape : shape.InRange) :
    ∃ factors, generate quantile n first last shape = .ok factors ∧
      factors.length = n ∧
      PenaltySpec.ofFactors factors (some n) = .ok (.sortedL1 factors) ∧
      (∀ x ∈ factors, 0 ≤ x) ∧ factors.Pairwise (· ≥ ·) ∧
      factors.head? = some first ∧
      (shape = .linear → 2 ≤ n → factors.getLast? = some last ∧
        ∀ i, (h : i + 1 < factors.length) →
          factors[i] - factors[i + 1] = (first - last) / (n - 1)) ∧
      factors = entries quantile n first last shape ∧
      runningMin (entries quantile n first last shape) = entries quantile n first last shape := by
  have hspec := entries_spec hmono hhalf hn hlast hle hshape
  have hkept := runningMin_of_pairwise hspec.pairwise
  refine ⟨entries quantile n first last shape, ?_, hspec.length_eq, ?_, hspec.nonneg,
    hspec.pairwise, hspec.head?_eq, ?_, rfl, hkept⟩
  · rw [generate_eq hn hlast hle hshape, hkept]
  · have hne : entries quantile n first last shape ≠ [] := by
      rw [← List.length_pos_iff, hspec.length_eq]
      exact hn
    have haccepted := PenaltySpec.ofFactors_eq_ok hne hspec.pairwise hspec.nonneg
    rwa [hspec.length_eq] at haccepted
  · rintro rfl htwo
    refine ⟨linear_getLast? htwo, fun i hi => ?_⟩
    simp only [entries, linear_getElem]
    push_cast
    ring

end Generate

end Sequence

end SparseWeights
