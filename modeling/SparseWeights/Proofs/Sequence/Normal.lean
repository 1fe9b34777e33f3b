import Mathlib.Probability.CDF
import Mathlib.Probability.Distributions.Gaussian.Real
import SparseWeights.Proofs.Sequence.Exact

/-!
The quantile function of the standard normal distribution over the reals. The distribution
function is continuous and strictly increasing, so between zero and one the quantile function
is its inverse; it vanishes at one half, as the distribution is symmetric.
-/

namespace SparseWeights.Sequence

open MeasureTheory ProbabilityTheory Set

/-- The standard normal distribution. -/
noncomputable abbrev normalLaw : Measure ℝ := gaussianReal 0 1

/-- The least number up to which the standard normal distribution has a probability. -/
noncomputable def normalQuantile (p : ℝ) : ℝ := sInf {x | p ≤ cdf normalLaw x}

theorem normalLaw_singleton (x : ℝ) : normalLaw {x} = 0 :=
  gaussianReal_absolutelyContinuous 0 one_ne_zero (Real.volume_singleton)

theorem continuous_cdf : Continuous (cdf normalLaw) := by
  refine continuous_iff_continuousAt.mpr fun x => ?_
  have hjump := (cdf normalLaw).measure_singleton x
  rw [measure_cdf, normalLaw_singleton, eq_comm, ENNReal.ofReal_eq_zero, sub_nonpos] at hjump
  have hleft := ((cdf normalLaw).mono.leftLim_le le_rfl).antisymm hjump
  rw [(cdf normalLaw).mono.continuousAt_iff_leftLim_eq_rightLim, hleft,
    (cdf normalLaw).rightLim_eq]

theorem strictMono_cdf : StrictMono (cdf normalLaw) := by
  intro x y hxy
  have hpos : 0 < normalLaw (Ioc x y) := by
    refine pos_iff_ne_zero.mpr fun hzero => ?_
    have hvolume := gaussianReal_absolutelyContinuous' 0 one_ne_zero hzero
    rw [Real.volume_Ioc, ENNReal.ofReal_eq_zero] at hvolume
    linarith
  have hmeasure := (cdf normalLaw).measure_Ioc x y
  rw [measure_cdf] at hmeasure
  rw [hmeasure, ENNReal.ofReal_pos] at hpos
  linarith

theorem cdf_zero : cdf normalLaw 0 = 1 / 2 := by
  have hsymm : normalLaw.map (fun x => -x) = normalLaw := by
    rw [gaussianReal_map_neg, neg_zero]
  have hmirror : normalLaw (Iic 0) = normalLaw (Ici 0) := by
    nth_rewrite 1 [← hsymm]
    rw [Measure.map_apply measurable_neg measurableSet_Iic]
    simp
  have hopen : normalLaw (Ici 0) = normalLaw (Ioi 0) :=
    (measure_congr (Ioi_ae_eq_Ici' (normalLaw_singleton 0))).symm
  have htotal := probReal_compl_eq_one_sub (μ := normalLaw) (measurableSet_Iic (a := (0 : ℝ)))
  rw [compl_Iic, measureReal_def, ← hopen, ← hmirror, ← measureReal_def,
    ← cdf_eq_real] at htotal
  linarith

/-- Between zero and one the quantile function is the inverse of the distribution function. -/
theorem cdf_normalQuantile {p : ℝ} (hp : p ∈ Ioo 0 1) :
    cdf normalLaw (normalQuantile p) = p := by
  obtain ⟨x, rfl⟩ : p ∈ range (cdf normalLaw) := by
    refine mem_range_of_exists_le_of_exists_ge continuous_cdf ?_ ?_
    · exact ((tendsto_cdf_atBot normalLaw).eventually_le_const hp.1).exists
    · exact ((tendsto_cdf_atTop normalLaw).eventually_const_le hp.2).exists
  have hset : {y | cdf normalLaw x ≤ cdf normalLaw y} = Ici x := by
    ext y
    exact strictMono_cdf.le_iff_le
  rw [normalQuantile, hset, csInf_Ici]

theorem strictMonoOn_normalQuantile : StrictMonoOn normalQuantile (Ioo 0 1) := by
  intro p hp p' hp' hlt
  rwa [← strictMono_cdf.lt_iff_lt, cdf_normalQuantile hp, cdf_normalQuantile hp']

theorem normalQuantile_half : normalQuantile (1 / 2) = 0 := by
  apply strictMono_cdf.injective
  rw [cdf_normalQuantile (by norm_num), cdf_zero]

theorem generate_accepted_normal :
    (0 : ℝ) ≤ 3 / 100 ∧ (3 / 100 : ℝ) ≤ 3 / 10 ∧ (Shape.quantile (1 / 10 : ℝ)).InRange ∧
      ∃ factors, generate normalQuantile 3 (3 / 10) (3 / 100) (.quantile (1 / 10)) = .ok factors ∧
        factors.length = 3 ∧
        PenaltySpec.ofFactors factors (some 3) = .ok (.sortedL1 factors) ∧
        factors.head? = some (3 / 10) := by
  have hshape : (Shape.quantile (1 / 10 : ℝ)).InRange := by
    constructor <;> norm_num
  obtain ⟨factors, hgenerate, hlength, haccepted, _, _, hhead, _⟩ :=
    generate_accepted (n := 3) strictMonoOn_normalQuantile normalQuantile_half (by norm_num)
      (by norm_num : (0 : ℝ) ≤ 3 / 100) (by norm_num : (3 / 100 : ℝ) ≤ 3 / 10) hshape
  exact ⟨by norm_num, by norm_num, hshape, factors, hgenerate, hlength, haccepted, hhead⟩

end SparseWeights.Sequence
