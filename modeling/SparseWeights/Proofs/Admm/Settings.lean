import SparseWeights.Admm.Run

/-!
Settings that passed the checks, and what the rule to stop makes of them. The
checks are comparisons, so the statements hold for any scalars, NaN among them: a
tolerance that is NaN is above nothing and does not pass.
-/

namespace SparseWeights

variable {α : Type} [Scalar α]

namespace Settings

variable {settings : Settings α}

/-- Settings whose numbers passed the checks, whatever the scalars are. -/
def Valid (settings : Settings α) : Prop :=
  ∃ (numbers : Numbers α) (verbose progress : Value),
    ofNumbers numbers verbose progress = .ok settings

theorem Numbers.invalid?_eq_none {numbers : Numbers α} :
    numbers.invalid? = none ↔
      0 < numbers.maxIter ∧ (0 < numbers.tolInfeas ∧ 0 < numbers.tolRelGap) ∧
        numbers.rho.any (fun rho => !Scalar.isPositive rho) = false ∧
        numbers.timeLimit.any (fun limit => decide (limit ≤ 0)) = false := by
  grind [Numbers.invalid?]

/-- The numbers among settings. -/
def numbers (settings : Settings α) : Numbers α where
  maxIter := settings.maxIter
  tolInfeas := settings.tolInfeas
  tolRelGap := settings.tolRelGap
  rho := settings.rho
  timeLimit := settings.timeLimit

/-- The checks change nothing: the settings hold the numbers that were checked. -/
theorem ofNumbers_eq_ok_iff {numbers : Numbers α} {verbose progress : Value} :
    ofNumbers numbers verbose progress = .ok settings ↔
      settings.numbers.invalid? = none ∧ settings.numbers = numbers ∧
        settings.verbose = verbose ∧ settings.progress = progress := by
  constructor
  · intro h
    unfold ofNumbers at h
    split at h
    · cases h
    · rename_i hvalid
      obtain rfl := Except.ok.inj h
      obtain ⟨hiter, _⟩ := Numbers.invalid?_eq_none.mp hvalid
      -- Only a limit above zero is the same as a count.
      have hsame : (numbers.maxIter.toNat : Int) = numbers.maxIter :=
        Int.toNat_of_nonneg (Int.le_of_lt hiter)
      rw [Settings.numbers, hsame]
      exact ⟨hvalid, rfl, rfl, rfl⟩
  · rintro ⟨hvalid, rfl, rfl, rfl⟩
    rw [ofNumbers, hvalid]
    rfl

theorem valid_iff :
    settings.Valid ↔
      0 < settings.maxIter ∧ (0 < settings.tolInfeas ∧ 0 < settings.tolRelGap) ∧
        settings.rho.any (fun rho => !Scalar.isPositive rho) = false ∧
        settings.timeLimit.any (fun limit => decide (limit ≤ 0)) = false := by
  have hchecked : settings.Valid ↔ settings.numbers.invalid? = none := by
    simp only [Valid, ofNumbers_eq_ok_iff]
    grind
  rw [hchecked, Numbers.invalid?_eq_none]
  simp only [numbers, Int.natCast_pos]

theorem stop?_eq_none_iff {r : Record Nat α} {now : α} :
    settings.stop? r now = none ↔
      settings.accepts r = false ∧ settings.timedOut now = false := by
  unfold stop?
  split
  · simp_all
  · split
    · simp_all
    · simp_all

/-- The status tells only whether the test was passed. -/
theorem status_stop? (r : Record Nat α) (now : α) :
    ((settings.stop? r now).getD .iterationLimit).status =
      if settings.accepts r then .optimal else .iterationLimit := by
  unfold stop?
  split
  · simp [Stop.status]
  · split
    · simp [Stop.status]
    · simp [Stop.status]

end Settings

end SparseWeights
