import SparseWeights.Penalty.Spec
import SparseWeights.Proofs.Sequence.Answered
import SparseWeights.Proofs.Sequence.Steps

/-!
Sequences handed to the sorted penalty. An answer is not always accepted there: the guards
on the bounds let infinity and NaN pass, the quantile of a level that rounds to one is
infinite, steps without all of their bits can lead below zero, and a number of tests that is
not whole has one rank too many. What is left is accepted.
-/

namespace SparseWeights

open Binary

theorem PenaltySpec.ofValues_floats {xs : List Float} {count : Value} (hcount : count ≠ .null) :
    ofValues .sortedL1 (.list (xs.map .float)) count =
      (liftM count.toInt >>= fun k => liftM (ofFactors xs (some k)) : Except Error _) := by
  rw [ofValues, Tensor.ofValue_floats]
  cases count with
  | null => exact absurd rfl hcount
  | bool _ | int _ | float _ | text _ | list _ | record _ | moment _ =>
      simp only [bind_map_left]
      rfl

theorem PenaltySpec.ofValues_floats_iff {xs : List Float} {count : Value} (hcount : count ≠ .null)
    {spec : PenaltySpec Float} :
    ofValues .sortedL1 (.list (xs.map .float)) count = .ok spec ↔
      ∃ k, count.toInt = .ok k ∧ ofFactors xs (some k) = .ok spec := by
  simp only [ofValues_floats hcount, bind_eq_ok_iff, liftM_fault_eq_ok_iff,
    liftM_invalid_eq_ok_iff]

namespace Sequence

/-- Even steps that are accepted: between finite bounds, and none below zero. -/
def Request.StepsSuit (r : Request) : Prop :=
  ∃ n first last, ReadsSteps r n first last ∧ first.isFinite = true ∧ last.isFinite = true ∧
    ∀ i < n, 0 ≤ evenStep first last n i

/-- Quantiles that are accepted: as many as there are tests, and the first one finite after scaling. -/
def Request.QuantilesSuit (quantile : Float → Float) (r : Request) : Prop :=
  ∃ q size count, ReadsQuantiles r q size count ∧ r.count.toInt = .ok (count : ℤ) ∧
    (0 < topQuantile quantile q size → ∃ first, r.first.toFloat = .ok first ∧
      (first * topQuantile quantile q size / topQuantile quantile q size).isFinite = true)

/-- Whether the answer to a request is accepted. -/
def Request.Suits (quantile : Float → Float) (r : Request) : Prop :=
  r.kind.display = "linear" ∧ r.StepsSuit ∨ r.kind.display = "bh" ∧ r.QuantilesSuit quantile

/-- The penalty that the factors of an answer make up on as many weights as were asked for. -/
def Request.penalty (r : Request) (factors : List Float) : Except Error (PenaltySpec Float) :=
  PenaltySpec.ofValues .sortedL1 (.list (factors.map .float)) r.count

variable {memory : Memory} {quantile : Float → Float} {r : Request}

theorem Request.penalty_runningMin_iff (hnull : r.count ≠ .null) {x : Float} {xs : List Float} :
    r.penalty (runningMin (x :: xs)) = .ok (.sortedL1 (runningMin (x :: xs))) ↔
      r.count.toInt = .ok ((x :: xs).length : ℤ) ∧ x.isFinite = true ∧ ∀ y ∈ x :: xs, 0 ≤ y := by
  rw [penalty, PenaltySpec.ofValues_floats_iff hnull]
  constructor
  · rintro ⟨k, hk, hfactors⟩
    obtain ⟨-, rfl, hentries⟩ := ofFactors_runningMin_iff.mp hfactors
    exact ⟨hk, hentries⟩
  · rintro ⟨hk, hentries⟩
    exact ⟨_, hk, ofFactors_runningMin_iff.mpr ⟨rfl, rfl, hentries⟩⟩

section Steps

variable {n : ℕ} {first last : Float}

theorem ReadsSteps.toInt (h : ReadsSteps r n first last) : r.count.toInt = .ok (n : ℤ) := by
  have hcount := h.count
  cases hv : r.count with
  | int m =>
      rw [hv] at hcount
      exact hcount
  | bool b =>
      rw [hv] at hcount
      exact hcount
  | null | float _ | text _ | list _ | record _ | moment _ =>
      rw [hv] at hcount
      cases hcount

theorem ReadsSteps.count_ne_null (h : ReadsSteps r n first last) : r.count ≠ .null := by
  intro hnull
  have hcount := h.count
  rw [hnull] at hcount
  cases hcount

theorem linear_eq_cons (first last : Float) (hpos : 0 < n) :
    ∃ rest, linear first last n = evenStep first last n 0 :: rest := by
  obtain ⟨k, rfl⟩ := Nat.exists_eq_succ_of_ne_zero hpos.ne'
  rw [linear, List.range_succ_eq_map, List.map_cons]
  exact ⟨_, rfl⟩

theorem ReadsSteps.unique (h : ReadsSteps r n first last) {n' : ℕ} {first' last' : Float}
    (h' : ReadsSteps r n' first' last') : n' = n ∧ first' = first ∧ last' = last := by
  have hcount := Except.ok.inj (h'.count.symm.trans h.count)
  exact ⟨by omega, Except.ok.inj (h'.first.symm.trans h.first),
    Except.ok.inj (h'.last.symm.trans h.last)⟩

theorem ReadsSteps.suit_iff (h : ReadsSteps r n first last) :
    r.StepsSuit ↔ first.isFinite = true ∧ last.isFinite = true ∧
      ∀ i < n, 0 ≤ evenStep first last n i := by
  refine ⟨?_, fun hsuit => ⟨n, first, last, h, hsuit⟩⟩
  rintro ⟨n', first', last', h', hsuit⟩
  obtain ⟨rfl, rfl, rfl⟩ := h.unique h'
  exact hsuit

/-- Even steps are accepted exactly if the bounds are finite and no step leads below zero. -/
theorem penalty_evenFactors_iff {factors : List Float}
    (h : evenFactors memory quantile r = .ok factors) :
    r.penalty factors = .ok (.sortedL1 factors) ↔ r.StepsSuit := by
  obtain ⟨n, first, last, hreads, hpos, hroom, hguards, rfl⟩ := evenFactors_eq_ok h
  obtain ⟨rest, hlinear⟩ := linear_eq_cons first last hpos
  have hlength : (linear first last n).length = n := by simp [linear]
  have hentries : (∀ y ∈ linear first last n, 0 ≤ y) ↔ ∀ i < n, 0 ≤ evenStep first last n i := by
    simp [linear]
  rw [hreads.suit_iff, ← hentries, ← and_assoc,
    ← isFinite_evenStep_zero_iff hpos (by omega) hguards]
  rw [hlinear] at hlength ⊢
  rw [Request.penalty_runningMin_iff hreads.count_ne_null, hlength]
  exact and_iff_right hreads.toInt

/-- Unless their steps are too small, even steps between finite bounds are accepted. -/
theorem ReadsSteps.suit_of_finite (h : ReadsSteps r n first last) {factors : List Float}
    (hfactors : evenFactors memory quantile r = .ok factors) (hfirst : first.isFinite = true)
    (hlast : last.isFinite = true) (hsafe : ¬Underflows first last n) : r.StepsSuit := by
  obtain ⟨n', first', last', h', hpos, hroom, hguards, -⟩ := evenFactors_eq_ok hfactors
  obtain ⟨rfl, rfl, rfl⟩ := h.unique h'
  obtain ⟨hnonneg, hle⟩ := le_of_badBounds hfirst hlast hguards
  exact ⟨n', first', last', h, hfirst, hlast, fun i hi =>
    evenStep_nonneg hfirst hlast hnonneg hle (by omega) hsafe hi⟩

end Steps

section Quantiles

variable {q size : Float} {count : ℕ}

theorem ReadsQuantiles.suit_iff (h : ReadsQuantiles r q size count) :
    r.QuantilesSuit quantile ↔ r.count.toInt = .ok (count : ℤ) ∧
      (0 < topQuantile quantile q size → ∃ first, r.first.toFloat = .ok first ∧
        (first * topQuantile quantile q size / topQuantile quantile q size).isFinite = true) := by
  refine ⟨?_, fun hsuit => ⟨q, size, count, h, hsuit⟩⟩
  rintro ⟨q', size', count', h', hsuit⟩
  obtain rfl := Except.ok.inj (h'.level.symm.trans h.level)
  obtain ⟨rfl, rfl⟩ := Prod.mk.inj (Except.ok.inj (h'.tests.symm.trans h.tests))
  exact hsuit

theorem ReadsQuantiles.count_ne_null (h : ReadsQuantiles r q size count) : r.count ≠ .null := by
  intro hnull
  have htests := h.tests
  rw [hnull] at htests
  cases htests

/-- Without a positive quantile all factors are zero. -/
theorem ReadsQuantiles.penalty_zeros_iff (h : ReadsQuantiles r q size count) (hpos : 0 < count)
    (htop : ¬0 < topQuantile quantile q size) :
    r.penalty (runningMin (List.replicate count 0)) =
        .ok (.sortedL1 (runningMin (List.replicate count 0))) ↔ r.QuantilesSuit quantile := by
  obtain ⟨k, rfl⟩ := Nat.exists_eq_succ_of_ne_zero hpos.ne'
  have hzeros : ∀ y ∈ List.replicate (k + 1) (0 : Float), 0 ≤ y := fun y hy => by
    rw [List.eq_of_mem_replicate hy]
    exact le_self isFinite_zero
  rw [h.suit_iff, List.replicate_succ, Request.penalty_runningMin_iff h.count_ne_null,
    ← List.replicate_succ, List.length_replicate]
  exact and_congr_right fun _ => iff_of_true ⟨isFinite_zero, hzeros⟩ fun hpos => absurd hpos htop

/-- Scaled quantiles. -/
theorem ReadsQuantiles.penalty_scaled_iff (h : ReadsQuantiles r q size count)
    (hroom : count < 2 ^ 50) (hquantile : IsQuantile quantile) (hbounds : r.hasBadBounds = .ok false) (hpos : 0 < count)
    (hq : q.isFinite = true ∧ 0 < number q ∧ number q < 1)
    (htop : 0 < topQuantile quantile q size) {first : Float} (hread : r.first.toFloat = .ok first)
    {entries : List Float} (hentries : entries = (quantiles quantile q size count).map fun x =>
      first * x / topQuantile quantile q size) :
    r.penalty (runningMin entries) = .ok (.sortedL1 (runningMin entries)) ↔
      r.QuantilesSuit quantile := by
  obtain ⟨rest, hraw⟩ := quantiles_eq_cons quantile q size hpos
  have hcons := hentries
  rw [hraw, List.map_cons] at hcons
  have hlength : entries.length = count := by simp [hentries, quantiles]
  rw [h.suit_iff, hcons, Request.penalty_runningMin_iff h.count_ne_null, ← hcons, hlength]
  refine and_congr_right fun hint => ⟨?_, fun hsuit => ?_⟩
  · rintro ⟨hfinite, -⟩
    exact fun _ => ⟨first, hread, hfinite⟩
  · obtain ⟨first', hread', hfinite⟩ := hsuit htop
    obtain rfl := Except.ok.inj (hread'.symm.trans hread)
    refine ⟨hfinite, fun y hy => ?_⟩
    rw [hentries] at hy
    obtain ⟨x, hx, rfl⟩ := List.mem_map.mp hy
    exact scaled_nonneg hquantile (ranked_of_tests hroom hq h.tests hpos hint)
      (fun hfirst => first_nonneg hbounds hfirst hread) htop hfinite hx

/-- Quantiles are accepted exactly if there are as many as tests, and the first one is finite after
scaling. -/
theorem penalty_quantileFactors_iff (hquantile : IsQuantile quantile)
    (hbounds : r.hasBadBounds = .ok false) {factors : List Float}
    (h : quantileFactors memory quantile r = .ok factors) :
    r.penalty factors = .ok (.sortedL1 factors) ↔ r.QuantilesSuit quantile := by
  obtain ⟨q, size, count, first, hreads, hpos, hroom, hq, hfirst, rfl⟩ :=
    quantileFactors_eq_ok h
  obtain ⟨rest, hraw⟩ := quantiles_eq_cons quantile q size hpos
  by_cases htop : 0 < topQuantile quantile q size
  · have hread : r.first.toFloat = .ok first := by
      rwa [hraw, scale, if_pos htop] at hfirst
    have hscaled : scaled? first (quantiles quantile q size count) =
        some ((quantiles quantile q size count).map fun x =>
          first * x / topQuantile quantile q size) := by
      rw [hraw, scaled?, if_pos htop]
    rw [hscaled, Option.getD_some]
    exact hreads.penalty_scaled_iff hroom hquantile hbounds hpos hq htop hread rfl
  · have hnone : scaled? first (quantiles quantile q size count) = none := by
      rw [hraw, scaled?, if_neg htop]
    rw [hnone, Option.getD_none]
    exact hreads.penalty_zeros_iff hpos htop

end Quantiles

/-- An answer is accepted exactly if the request suits; and a request for even steps does
between finite bounds unless its steps are too small. -/
theorem penalty_ofRequestBy_iff (hquantile : IsQuantile quantile) {factors : List Float}
    (h : ofRequestBy memory quantile r = .ok factors) :
    (r.penalty factors = .ok (.sortedL1 factors) ↔ r.Suits quantile) ∧
      ∀ n first last, r.kind.display = "linear" → ReadsSteps r n first last →
        first.isFinite = true → last.isFinite = true → ¬Underflows first last n →
          r.penalty factors = .ok (.sortedL1 factors) := by
  obtain ⟨hbounds, ⟨hkind, h⟩ | ⟨hkind, h⟩⟩ := ofRequestBy_eq_ok h
  · have hsuit : r.Suits quantile ↔ r.StepsSuit := by
      simp [Request.Suits, hkind]
    rw [hsuit, penalty_evenFactors_iff h]
    exact ⟨Iff.rfl, fun n first last _ hreads hfirst hlast hsafe =>
      hreads.suit_of_finite h hfirst hlast hsafe⟩
  · have hsuit : r.Suits quantile ↔ r.QuantilesSuit quantile := by
      simp [Request.Suits, hkind]
    rw [hsuit]
    refine ⟨penalty_quantileFactors_iff hquantile hbounds h, fun _ _ _ hlinear => ?_⟩
    rw [hkind] at hlinear
    exact absurd hlinear (by decide)

/-- The quantiles of the two levels of `twoTests`, with the pole. -/
def twoQuantiles (p : Float) : Float :=
  if 1 ≤ p then 1 / 0 else if p ≤ 0.8 then Quantile.normal 0.75 else Quantile.normal 0.875

theorem isQuantile_twoQuantiles : IsQuantile twoQuantiles where
  isFinite p _ hp := by
    rw [twoQuantiles, if_neg fun hone => not_lt_of_le hone hp]
    split <;> decide +kernel
  infinite p hp _ := by
    rw [twoQuantiles, if_pos hp]

/-- Two tests at the level one half. -/
def twoTests : Request where
  count := .int 2
  kind := .text "bh"
  level := .float 0.5

/-- Room for a million numbers. -/
def millionNumbers : Memory := ⟨2000000, 1000000, by decide⟩

theorem penalty_twoTests :
    IsQuantile twoQuantiles ∧
      ∃ factors, ofRequestBy millionNumbers twoQuantiles twoTests = .ok factors ∧
      (twoTests.penalty factors).isOk = true ∧
      (twoTests.penalty factors = .ok (.sortedL1 factors) ↔ twoTests.Suits twoQuantiles) ∧
      ∀ n first last, twoTests.kind.display = "linear" → ReadsSteps twoTests n first last →
        first.isFinite = true → last.isFinite = true → ¬Underflows first last n →
          twoTests.penalty factors = .ok (.sortedL1 factors) := by
  have hanswered :
      (ofRequestBy millionNumbers twoQuantiles twoTests >>= twoTests.penalty).isOk = true := by
    decide +kernel
  cases hfactors : ofRequestBy millionNumbers twoQuantiles twoTests with
  | error e =>
      rw [hfactors] at hanswered
      cases hanswered
  | ok factors =>
      rw [hfactors] at hanswered
      exact ⟨isQuantile_twoQuantiles, factors, rfl, hanswered,
        penalty_ofRequestBy_iff isQuantile_twoQuantiles hfactors⟩

/-- One test at so small a level that what is left of one rounds to one. -/
def tinyLevel : Request where
  count := .int 1
  kind := .text "bh"
  first := .float 2
  level := .float 1e-300

/-- An answer by quantiles depends on the memory only where the ranks are counted. -/
theorem ofRequestBy_congr {memory' : Memory} (hkind : r.kind.display = "bh")
    (hcounts : ∀ size n, tests r.count = .ok (size, n) →
      memory.checkedCount n = memory'.checkedCount n) :
    ofRequestBy memory quantile r = ofRequestBy memory' quantile r := by
  have hfactors : quantileFactors memory quantile r = quantileFactors memory' quantile r := by
    rw [quantileFactors, quantileFactors]
    cases htests : tests r.count with
    | error cause => rfl
    | ok found =>
        obtain ⟨size, n⟩ := found
        have hcount := hcounts size n htests
        simp only [liftM_fault_ok_bind, hcount]
  rw [ofRequestBy, ofRequestBy]
  refine congrArg _ (funext fun none => ?_)
  split
  · rfl
  refine congrArg _ (funext fun bad => ?_)
  split
  · rfl
  split
  next hlinear =>
    rw [hkind] at hlinear
    exact absurd hlinear (by decide)
  next => exact hfactors
  next => rfl

/-- Where there is room for a number at all, it is answered with a factor that the sorted penalty
refuses. -/
theorem tinyLevel_refused :
    ∃ x, (∀ memory : Memory, memory.checkedCount 1 = .ok 1 → ofRequest memory tinyLevel = .ok [x]) ∧
      x.isNaN = true ∧ tinyLevel.penalty [x] = .error (.invalid .weightsNotFinite) := by
  have hanswered :
      (ofRequest millionNumbers tinyLevel).toOption.map (List.map Float.isNaN) = some [true] := by
    decide +kernel
  cases hfactors : ofRequest millionNumbers tinyLevel with
  | error e =>
      rw [hfactors] at hanswered
      cases hanswered
  | ok factors =>
      rw [hfactors] at hanswered
      obtain ⟨x, rfl, hnan⟩ := List.map_eq_singleton_iff.mp (Option.some.inj hanswered)
      have hfinite : Scalar.isFinite x = false := by
        rw [← Bool.not_eq_true]
        exact fun h => Bool.false_ne_true (((isFinite_iff_not_special x).mp h).1.symm.trans hnan)
      have hrefused : PenaltySpec.ofFactors [x] (some 1) = .error .weightsNotFinite := by
        simp [PenaltySpec.ofFactors, hfinite]
      refine ⟨x, fun memory hroom => ?_, hnan, ?_⟩
      · have hcounts : ∀ size n, tests tinyLevel.count = .ok (size, n) →
            memory.checkedCount n = millionNumbers.checkedCount n := by
          rintro size n htests
          obtain ⟨-, rfl⟩ := Prod.mk.inj (Except.ok.inj htests)
          exact hroom
        exact (ofRequestBy_congr rfl hcounts).trans hfactors
      rw [Request.penalty, PenaltySpec.ofValues_floats (by rintro ⟨⟩)]
      change (liftM (PenaltySpec.ofFactors [x] (some 1)) : Except Error (PenaltySpec Float)) = _
      rw [hrefused]
      rfl

end Sequence

end SparseWeights
