import SparseWeights.Proofs.Synthetic.Sheet

/-!
Which plans can be drawn, and that a study reads what was drawn. A plan fixes
little when it is made, so a draw has conditions of its own; of a portfolio it
needs a second asset besides, although the plan does not ask for one.
-/

namespace SparseWeights.Synthetic

namespace Generator

variable {g : Generator} {α β : Type}

/-- A draw that comes to an end, whatever was drawn before. -/
def Answers (draw : g.Draw α) : Prop := ∀ state, ∃ drawn, draw.run state = .ok drawn

/-- A generator that has room for every draw of numbers that there are. -/
structure Unfailing (g : Generator) : Prop where
  places {k count : Nat} (h : count ≤ k) : Answers (g.places h)
  uniform {low high : Float} (hrange : (high - low).isFinite = true) (n : Nat) :
    Answers (g.uniform low high n)
  normal {n : Nat} {deviations : Vec Float n}
    (hsigns : ∀ i, isNegative (deviations.get i) = false) : Answers (g.normal deviations)
  normalRows (m n : Nat) : Answers (g.normalRows m n)

theorem answers_pure (a : α) : Answers (pure a : g.Draw α) := fun state => ⟨(a, state), rfl⟩

theorem Answers.bind {draw : g.Draw α} {next : α → g.Draw β} (hdraw : Answers draw)
    (hnext : ∀ a, Answers (next a)) : Answers (draw >>= next) := by
  intro state
  obtain ⟨⟨a, later⟩, ha⟩ := hdraw state
  obtain ⟨drawn, hdrawn⟩ := hnext a later
  exact ⟨drawn, by rw [StateT.run_bind, ha]; exact hdrawn⟩

theorem lift_ok_bind (a : α) (next : α → g.Draw β) :
    ((liftM (.ok a : Except Fault α) : g.Draw α) >>= next) = next a := rfl

theorem bind_run_eq_ok {draw : g.Draw α} {next : α → g.Draw β} {state : g.State}
    {drawn : β × g.State} (h : (draw >>= next).run state = .ok drawn) :
    ∃ a later, (next a).run later = .ok drawn := by
  rw [StateT.run_bind] at h
  obtain ⟨⟨a, later⟩, -, hnext⟩ := bind_eq_ok_iff.mp h
  exact ⟨a, later, hnext⟩

theorem lift_bind_run_eq_ok {x : Except Fault α} {next : α → g.Draw β} {state : g.State}
    {drawn : β × g.State} (h : ((liftM x : g.Draw α) >>= next).run state = .ok drawn) :
    ∃ a, x = .ok a ∧ (next a).run state = .ok drawn := by
  cases x with
  | error cause => cases h
  | ok a => exact ⟨a, rfl, h⟩

theorem run'_eq_ok_iff {draw : g.Draw α} {state : g.State} {a : α} :
    draw.run' state = .ok a ↔ ∃ later, draw.run state = .ok (a, later) := by
  change (draw.run state).map Prod.fst = .ok a ↔ _
  simp [map_eq_ok_iff]

theorem Answers.exists_map {draw : g.Draw α} (hdraw : Answers draw) (f : α → β)
    (state : g.State) : ∃ a, (f <$> draw).run' state = .ok (f a) := by
  obtain ⟨⟨a, later⟩, ha⟩ := hdraw state
  refine ⟨a, run'_eq_ok_iff.mpr ⟨later, ?_⟩⟩
  rw [StateT.run_map, ha]
  rfl

theorem start_eq_ok_iff (g : Generator) {seed : Value} (nth : Nat) :
    (∃ state, g.start seed nth = .ok state) ↔ ∃ parts?, seedOf seed = .ok parts? := by
  simp [start, map_eq_ok_iff]

end Generator

open Generator

theorem countOf_int (n : Nat) : countOf (.int n) = .ok n := by
  rw [countOf, if_neg (by omega), Int.toNat_natCast]

/-- Deviations without a minus sign are stretched to such ones. -/
theorem signs_of_spreadAlong {v : Value} {spread : Tensor Float} {n : Nat} {along : Vec Float n}
    (hspread : spreadOf v = .ok spread) (halong : spreadAlong spread n = .ok along) (i : Fin n) :
    isNegative (along.get i) = false := by
  have hsigns : ∀ x ∈ spread.entries, isNegative x = false := by
    obtain ⟨read, -, hspread⟩ := bind_eq_ok_iff.mp hspread
    split at hspread
    · cases hspread
    · cases hspread
    · split at hspread
      · cases hspread
      next hany =>
        obtain rfl := Except.ok.inj hspread
        simpa using hany
  have hmem : along.get i ∈ spread.entries := by
    rw [spreadAlong] at halong
    split at halong
    next v hv =>
      obtain rfl := Except.ok.inj halong
      rw [Tensor.asVec?] at hv
      split at hv
      · obtain rfl := Option.some.inj hv
        exact List.getElem_mem _
      · cases hv
    next x _ _ hentries =>
      obtain rfl := Except.ok.inj halong
      simp [hentries, Vec.get_eq_getElem]
    next x _ _ _ hentries =>
      obtain rfl := Except.ok.inj halong
      simp [hentries, Vec.get_eq_getElem]
    next => cases halong
  exact hsigns _ hmem

namespace Plan

/-- The deviation that the noise of a draw has. -/
def deviation (p : Plan) : Value :=
  match p.problem with
  | .regression => p.sigma
  | .portfolio => p.factorVol

/-- What a draw of `n` rows takes. -/
structure Takes (p : Plan) (seed : Value) (n : Nat) : Prop where
  seed : ∃ parts?, seedOf (p.seedFor seed) = .ok parts?
  spread : ∃ spread, spreadOf p.deviation = .ok spread ∧
    ∃ v : Vec Float n, spreadAlong spread n = .ok v
  whole : p.problem = .regression → ∃ active : Int, p.active = .int active

theorem isActiveCount_int (active k : Int) :
    isActiveCount (.int active) (.int k) = .ok (decide (1 ≤ active ∧ active ≤ k)) := by
  have hcompare : ∀ a b : Int, (Value.int a).atMost (.int b) = .ok (decide (a ≤ b)) := by
    intro a b
    change Except.ok (compare (a * 1) (b * 1)).isLE = _
    rw [mul_one, mul_one]
    congr 1
    rw [Bool.eq_iff_iff, decide_eq_true_iff]
    exact Int.isLE_compare
  rw [isActiveCount, hcompare, hcompare]
  by_cases hone : 1 ≤ active
  · simp [hone, bind, Except.bind]
  · simp [hone, bind, Except.bind, pure, Except.pure]

/-- A plan that was made has at least one active weight, and at most all of them. -/
theorem active_mem_of_ofConfig {config : Value} {p : Plan} {k : Nat} {active : Int}
    (hplan : ofConfig config = .ok p) (hk : p.k = .int k) (hactive : p.active = .int active) :
    1 ≤ active ∧ active ≤ k := by
  obtain ⟨fields, hfields⟩ : ∃ fields, ofConfig (.record fields) = .ok p := by
    cases config with
    | record fields => exact ⟨fields, hplan⟩
    | _ =>
      refine ⟨[], ?_⟩
      unfold ofConfig at hplan
      simp only at hplan
      split at hplan
      · cases hplan
      · exact hplan
  rw [ofConfig] at hfields
  simp only [pure_bind] at hfields
  obtain ⟨problem, -, hfields⟩ := bind_eq_ok_iff.mp hfields
  obtain ⟨within, hwithin, hfields⟩ := bind_eq_ok_iff.mp hfields
  split at hfields
  next htrue =>
    have hcount : isActiveCount p.active p.k = .ok true := by
      cases hfields
      rw [← htrue]
      exact liftM_fault_eq_ok_iff.mp hwithin
    rw [hk, hactive, isActiveCount_int] at hcount
    simpa using hcount
  next => cases hfields

section Draws

variable {p : Plan} {g : Generator} {seed : Value} {n k : Nat}

/-- The weights are drawn if their numbers are whole ones. -/
theorem exists_weights (hfree : g.Unfailing) {count : Nat} (hk : p.k = .int k)
    (hwhole : p.active = .int count) (hcount : count ≤ k)
    (hseed : ∃ parts?, seedOf (p.seedFor seed) = .ok parts?) (nth : Nat) :
    ∃ w : Vec Float k, p.weights g seed nth = .ok ⟨k, w⟩ := by
  have hrange : (1.5 - 0.5 : Float).isFinite = true := by decide +kernel
  have hdraw : p.drawWeights g = (⟨k, ·⟩) <$> (do
      let places ← g.places hcount
      let raw ← g.uniform 0.5 1.5 count
      return sparseWeights places raw) := by
    simp only [drawWeights, hk, hwhole, countOf_int, lift_ok_bind, dif_pos hcount, map_bind,
      map_pure]
  obtain ⟨state, hstate⟩ := (start_eq_ok_iff g nth).mpr hseed
  have hanswers := (hfree.places hcount).bind fun places =>
    (hfree.uniform hrange count).bind fun raw => answers_pure (sparseWeights places raw)
  obtain ⟨w, hw⟩ := hanswers.exists_map
    (fun w => (⟨k, w⟩ : (k : Nat) × Vec Float k)) state
  exact ⟨w, by rw [weights, hstate, hdraw]; exact hw⟩

/-- The features and the noise are drawn if the deviation is one for so many rows. -/
theorem exists_features (hfree : g.Unfailing) (hn : p.n = .int n) {spread : Tensor Float}
    (hspread : spreadOf p.sigma = .ok spread) {along : Vec Float n}
    (halong : spreadAlong spread n = .ok along) (k : Nat) (state : g.State) :
    ∃ (X : Mat Float n k) (noise : Vec Float n),
      (p.drawFeatures g k).run' state = .ok ⟨n, X, noise⟩ := by
  have hdraw : p.drawFeatures g k = (fun drawn => ⟨n, drawn.1, drawn.2⟩) <$> (do
      let X ← g.normalRows n k
      let noise ← g.normal along
      return (X, noise)) := by
    simp only [drawFeatures, hn, countOf_int, hspread, halong, lift_ok_bind, map_bind, map_pure]
  have hanswers := (hfree.normalRows n k).bind fun X =>
    (hfree.normal (signs_of_spreadAlong hspread halong)).bind fun noise => answers_pure (X, noise)
  obtain ⟨⟨X, noise⟩, hdrawn⟩ := hanswers.exists_map
    (fun drawn => (⟨n, drawn.1, drawn.2⟩ : (n : Nat) × Mat Float n k × Vec Float n)) state
  exact ⟨X, noise, by rw [hdraw]; exact hdrawn⟩

/-- The returns are drawn if the deviation is one for so many periods. -/
theorem exists_returns (hfree : g.Unfailing) (hn : p.n = .int n) (hk : p.k = .int k)
    {spread : Tensor Float} (hspread : spreadOf p.factorVol = .ok spread) {along : Vec Float n}
    (halong : spreadAlong spread n = .ok along) (state : g.State) :
    ∃ returns : Mat Float n k, (p.drawReturns g).run' state = .ok ⟨n, k, returns⟩ := by
  have hmeans : (0.01 - 0 : Float).isFinite = true := by decide +kernel
  have hdeviations : (0.04 - 0.01 : Float).isFinite = true := by decide +kernel
  have hloadings : (1.5 - 0.5 : Float).isFinite = true := by decide +kernel
  have hdraw : p.drawReturns g = (⟨n, k, ·⟩) <$> (do
      let means ← g.uniform 0 0.01 k
      let deviations ← g.uniform 0.01 0.04 k
      let loadings ← g.uniform 0.5 1.5 k
      let factor ← g.normal along
      let own ← g.normalRows n k
      return returnsOf means deviations loadings factor own) := by
    simp only [drawReturns, hn, hk, countOf_int, hspread, halong, lift_ok_bind, map_bind, map_pure]
  have hanswers := (hfree.uniform hmeans k).bind fun means =>
    (hfree.uniform hdeviations k).bind fun deviations =>
      (hfree.uniform hloadings k).bind fun loadings =>
        (hfree.normal (signs_of_spreadAlong hspread halong)).bind fun factor =>
          (hfree.normalRows n k).bind fun own =>
            answers_pure (returnsOf means deviations loadings factor own)
  obtain ⟨returns, hdrawn⟩ := hanswers.exists_map
    (fun returns => (⟨n, k, returns⟩ : (n : Nat) × (k : Nat) × Mat Float n k)) state
  exact ⟨returns, by rw [hdraw]; exact hdrawn⟩

/-- A regression is drawn if a draw has what it takes. -/
theorem Takes.regression (htakes : p.Takes seed n) (hfree : g.Unfailing)
    (hproblem : p.problem = .regression) (hn : p.n = .int n) (hk : p.k = .int k)
    (hactive : ∀ active, p.active = .int active → 1 ≤ active ∧ active ≤ k) :
    ∃ s, p.regression g seed = .ok s := by
  obtain ⟨spread, hspread, along, halong⟩ := htakes.spread
  obtain ⟨active, hwhole⟩ := htakes.whole hproblem
  obtain ⟨hone, hall⟩ := hactive active hwhole
  obtain ⟨count, rfl⟩ := Int.eq_ofNat_of_zero_le (by omega : 0 ≤ active)
  obtain ⟨state, hstate⟩ := (start_eq_ok_iff g 0).mpr htakes.seed
  obtain ⟨w, hw⟩ := exists_weights hfree hk hwhole (by omega) htakes.seed 1
  rw [deviation, hproblem] at hspread
  obtain ⟨X, noise, hdrawn⟩ := exists_features hfree hn hspread halong k state
  rw [Plan.regression, hstate, hw]
  change ∃ s, ((p.drawFeatures g k).run' state >>= _) = .ok s
  rw [hdrawn]
  exact ⟨_, regressionOf_eq_ok X _ w⟩

/-- Weights that were drawn had whole numbers. -/
theorem active_of_weights {nth : Nat} {drawn : (k : Nat) × Vec Float k} (hk : p.k = .int k)
    (hdrawn : p.weights g seed nth = .ok drawn) :
    drawn.1 = k ∧ ∃ active : Int, p.active = .int active := by
  obtain ⟨state, -, hdrawn⟩ := bind_eq_ok_iff.mp hdrawn
  obtain ⟨_, hdrawn⟩ := run'_eq_ok_iff.mp hdrawn
  obtain ⟨_, hcolumns, hdrawn⟩ := lift_bind_run_eq_ok hdrawn
  obtain ⟨count, hcount, hdrawn⟩ := lift_bind_run_eq_ok hdrawn
  rw [hk, countOf_int] at hcolumns
  obtain rfl := Except.ok.inj hcolumns
  constructor
  · split at hdrawn
    · obtain ⟨_, _, hdrawn⟩ := bind_run_eq_ok hdrawn
      obtain ⟨_, _, hdrawn⟩ := bind_run_eq_ok hdrawn
      cases hdrawn
      rfl
    · cases hdrawn
  · cases hactive : p.active with
    | int active => exact ⟨active, rfl⟩
    | _ =>
      rw [hactive] at hcount
      cases hcount

theorem spread_of_features {state : g.State}
    {drawn : (n : Nat) × Mat Float n k × Vec Float n} (hn : p.n = .int n)
    (hdrawn : (p.drawFeatures g k).run' state = .ok drawn) :
    drawn.1 = n ∧ ∃ spread, spreadOf p.sigma = .ok spread ∧
      ∃ v : Vec Float n, spreadAlong spread n = .ok v := by
  obtain ⟨_, hdrawn⟩ := run'_eq_ok_iff.mp hdrawn
  obtain ⟨_, hrows, hdrawn⟩ := lift_bind_run_eq_ok hdrawn
  obtain ⟨_, _, hdrawn⟩ := bind_run_eq_ok hdrawn
  obtain ⟨spread, hspread, hdrawn⟩ := lift_bind_run_eq_ok hdrawn
  obtain ⟨along, halong, hdrawn⟩ := lift_bind_run_eq_ok hdrawn
  obtain ⟨_, _, hdrawn⟩ := bind_run_eq_ok hdrawn
  rw [hn, countOf_int] at hrows
  obtain rfl := Except.ok.inj hrows
  cases hdrawn
  exact ⟨rfl, spread, hspread, along, halong⟩

theorem spread_of_returns {state : g.State} {drawn : (n : Nat) × (k : Nat) × Mat Float n k}
    (hn : p.n = .int n) (hk : p.k = .int k)
    (hdrawn : (p.drawReturns g).run' state = .ok drawn) :
    drawn.1 = n ∧ drawn.2.1 = k ∧ ∃ spread, spreadOf p.factorVol = .ok spread ∧
      ∃ v : Vec Float n, spreadAlong spread n = .ok v := by
  obtain ⟨_, hdrawn⟩ := run'_eq_ok_iff.mp hdrawn
  obtain ⟨_, hcolumns, hdrawn⟩ := lift_bind_run_eq_ok hdrawn
  obtain ⟨_, _, hdrawn⟩ := bind_run_eq_ok hdrawn
  obtain ⟨_, _, hdrawn⟩ := bind_run_eq_ok hdrawn
  obtain ⟨_, _, hdrawn⟩ := bind_run_eq_ok hdrawn
  obtain ⟨spread, hspread, hdrawn⟩ := lift_bind_run_eq_ok hdrawn
  obtain ⟨_, hrows, hdrawn⟩ := lift_bind_run_eq_ok hdrawn
  obtain ⟨along, halong, hdrawn⟩ := lift_bind_run_eq_ok hdrawn
  obtain ⟨_, _, hdrawn⟩ := bind_run_eq_ok hdrawn
  obtain ⟨_, _, hdrawn⟩ := bind_run_eq_ok hdrawn
  rw [hn, countOf_int] at hrows
  rw [hk, countOf_int] at hcolumns
  obtain rfl := Except.ok.inj hrows
  obtain rfl := Except.ok.inj hcolumns
  cases hdrawn
  exact ⟨rfl, rfl, spread, hspread, along, halong⟩

/-- A regression that was drawn had what it takes, and arrays of its sizes are behind it. -/
theorem takes_of_regression {s : Simulation} (hproblem : p.problem = .regression)
    (hn : p.n = .int n) (hk : p.k = .int k) (hdrawn : p.regression g seed = .ok s) :
    p.Takes seed n ∧ ∃ (X : Mat Float n k) (Y : Vec Float n) (w : Vec Float k),
      regressionOf X Y w = .ok s := by
  obtain ⟨state, hstate, hdrawn⟩ := bind_eq_ok_iff.mp hdrawn
  obtain ⟨⟨_, w⟩, hw, hdrawn⟩ := bind_eq_ok_iff.mp hdrawn
  obtain ⟨⟨_, X, noise⟩, hfeatures, hdrawn⟩ := bind_eq_ok_iff.mp hdrawn
  obtain ⟨rfl, hwhole⟩ := active_of_weights hk hw
  obtain ⟨rfl, hspread⟩ := spread_of_features hn hfeatures
  refine ⟨⟨(start_eq_ok_iff g 0).mp ⟨state, hstate⟩, ?_, fun _ => hwhole⟩, X, _, w, hdrawn⟩
  rwa [deviation, hproblem]

/-- A portfolio of two assets or more is drawn if a draw has what it takes. -/
theorem Takes.portfolio (htakes : p.Takes seed n) (hfree : g.Unfailing)
    (hproblem : p.problem = .portfolio) (hn : p.n = .int n) (hk : p.k = .int k) (hsingle : k ≠ 1) :
    ∃ s, p.portfolio g seed = .ok s := by
  obtain ⟨spread, hspread, along, halong⟩ := htakes.spread
  obtain ⟨state, hstate⟩ := (start_eq_ok_iff g 0).mpr htakes.seed
  rw [deviation, hproblem] at hspread
  obtain ⟨returns, hdrawn⟩ := exists_returns hfree hn hk hspread halong state
  rw [Plan.portfolio, hstate]
  change ∃ s, ((p.drawReturns g).run' state >>= _) = .ok s
  rw [hdrawn]
  exact ⟨_, portfolioOf_eq_ok returns hsingle⟩

/-- A portfolio that was drawn had what it takes, and not a single asset. -/
theorem takes_of_portfolio {s : Simulation} (hproblem : p.problem = .portfolio)
    (hn : p.n = .int n) (hk : p.k = .int k) (hdrawn : p.portfolio g seed = .ok s) :
    p.Takes seed n ∧ k ≠ 1 ∧ ∃ returns : Mat Float n k, portfolioOf returns = .ok s := by
  obtain ⟨state, hstate, hdrawn⟩ := bind_eq_ok_iff.mp hdrawn
  obtain ⟨⟨_, _, returns⟩, hreturns, hdrawn⟩ := bind_eq_ok_iff.mp hdrawn
  obtain ⟨rfl, rfl, hspread⟩ := spread_of_returns hn hk hreturns
  refine ⟨⟨(start_eq_ok_iff g 0).mp ⟨state, hstate⟩, ?_, ?_⟩, ?_, returns, hdrawn⟩
  · rwa [deviation, hproblem]
  · intro hregression
    rw [hproblem] at hregression
    cases hregression
  · rintro rfl
    cases (portfolioOf_single returns).symm.trans hdrawn

/-- Which plans of whole sizes are drawn. -/
theorem simulate_eq_ok_iff (hfree : g.Unfailing) (hn : p.n = .int n) (hk : p.k = .int k)
    (hactive : ∀ active, p.active = .int active → 1 ≤ active ∧ active ≤ k) :
    (∃ s, p.simulate g seed = .ok s) ↔ p.Takes seed n ∧ (p.problem = .portfolio → k ≠ 1) := by
  rw [simulate]
  cases hproblem : p.problem with
  | regression =>
    constructor
    · rintro ⟨s, hdrawn⟩
      exact ⟨(takes_of_regression hproblem hn hk hdrawn).1, nofun⟩
    · rintro ⟨htakes, -⟩
      exact htakes.regression hfree hproblem hn hk hactive
  | portfolio =>
    constructor
    · rintro ⟨s, hdrawn⟩
      obtain ⟨htakes, hsingle, -⟩ := takes_of_portfolio hproblem hn hk hdrawn
      exact ⟨htakes, fun _ => hsingle⟩
    · rintro ⟨htakes, hsingle⟩
      exact htakes.portfolio hfree hproblem hn hk (hsingle rfl)

/-- A deviation that is a number without a minus sign, and a seed that is a whole number of
either kind, are what a draw takes. -/
theorem Takes.of_numbers {deviation : Float} {m : Nat} (hdeviation : p.deviation = .float deviation)
    (hsign : isNegative deviation = false) (hseed : p.seedFor seed = .int m ∨ p.seedFor seed = .null)
    (hwhole : p.problem = .regression → ∃ active : Int, p.active = .int active) :
    p.Takes seed n := by
  refine ⟨?_, ⟨.scalar deviation, ?_, .replicate n deviation, rfl⟩, hwhole⟩
  · obtain hnumber | hnone := hseed
    · have hpart : seedPart (.int m) = .ok [m] := by
        rw [seedPart, if_neg (by omega)]
        rfl
      rw [hnumber]
      change ∃ parts?, some <$> seedPart (.int m) = .ok parts?
      rw [hpart]
      exact ⟨_, rfl⟩
    · rw [hnone]
      exact ⟨_, rfl⟩
  · have hread : Tensor.ofValue (.float deviation) = .ok (.scalar deviation) := rfl
    have hany : (Tensor.scalar deviation).entries.any isNegative = false := by
      simpa [Tensor.scalar] using hsign
    simp [spreadOf, hdeviation, hread, hany, bind, Except.bind, pure, Except.pure]

end Draws

end Plan

namespace Simulation

/-- A simulation of a regression with `n` rows, of which a study reads the features under the
names `x1` to `xk` and the response of every row. -/
structure IsRegression (s : Simulation) (n k : Nat) : Prop where
  columns : s.sheet.columns = numberedNames "x" k ++ ["y"]
  distinct : s.sheet.columns.Nodup
  rows : s.sheet.rows.length = n
  read : ∃ (X : Mat Float n k) (Y : Vec Float n) (weights : Vec Float k),
    s.parts = [("X", .ofMat X), ("Y", .ofVec Y), ("w_true", .ofVec weights)] ∧
      s.sheet.regression "y" = .ok ⟨numberedNames "x" k, .ofMat X, .ofVec Y⟩

/-- A simulation of a portfolio, of which a study reads the covariance of the assets `a1` to
`ak` and their expected returns. -/
structure IsPortfolio (s : Simulation) (n k : Nat) : Prop where
  columns : s.sheet.columns = numberedNames "a" k
  rows : s.sheet.rows.map (·.1) = (numberedNames "a" k ++ ["mu"]).map some
  distinct : (numberedNames "a" k ++ ["mu"]).Nodup
  read : ∃ (Sigma : Mat Float k k) (mu : Vec Float k) (returns : Mat Float n k),
    s.parts = [("Sigma", .ofMat Sigma), ("mu", .ofVec mu), ("returns", .ofMat returns)] ∧
      s.sheet.portfolio = .ok ⟨numberedNames "a" k, .ofMat Sigma, .ofVec mu⟩

/-- A simulation that a study of the problem can read. -/
def Suits (s : Simulation) (n k : Nat) : ProblemKind → Prop
  | .regression => s.IsRegression n k
  | .portfolio => s.IsPortfolio n k

variable {n k : Nat} {s : Simulation}

theorem isRegression_of_regressionOf {X : Mat Float n k} {Y : Vec Float n} {weights : Vec Float k}
    (h : regressionOf X Y weights = .ok s) : s.IsRegression n k := by
  rw [regressionOf_eq_ok] at h
  obtain rfl := Except.ok.inj h
  have hy : "y" ∉ numberedNames "x" k := not_mem_numberedNames k (by decide) (by decide)
  exact {
    columns := rfl
    distinct :=
      (numberedNames_nodup "x" k).append (List.nodup_singleton "y") (by simpa using hy)
    rows := by simp [regressionSheet]
    read := ⟨X, Y, weights, rfl, regression_sheet X Y⟩ }

theorem isPortfolio_of_portfolioOf {returns : Mat Float n k} (hsingle : k ≠ 1)
    (h : portfolioOf returns = .ok s) : s.IsPortfolio n k := by
  rw [portfolioOf_eq_ok returns hsingle] at h
  obtain rfl := Except.ok.inj h
  have hmu : "mu" ∉ numberedNames "a" k := not_mem_numberedNames k (by decide) (by decide)
  exact {
    columns := rfl
    rows := by simp [portfolioSheet, List.map_fst_zip]
    distinct :=
      (numberedNames_nodup "a" k).append (List.nodup_singleton "mu") (by simpa using hmu)
    read := ⟨_, _, returns, rfl, portfolio_sheet _ _⟩ }

end Simulation

/-- With a generator that has room, plans of whole sizes are drawn exactly if the draw has what it takes
and a portfolio has more than one asset; and whatever is drawn, with any generator, suits a study of the
problem. -/
theorem Plan.simulate_suits {config : Value} {p : Plan} (g : Generator) (seed : Value) {n k : Nat}
    (hplan : Plan.ofConfig config = .ok p) (hn : p.n = .int n) (hk : p.k = .int k) :
    (g.Unfailing → ((∃ s, p.simulate g seed = .ok s) ↔
      p.Takes seed n ∧ (p.problem = .portfolio → k ≠ 1))) ∧
      ∀ s, p.simulate g seed = .ok s → s.Suits n k p.problem := by
  have hactive : ∀ active, p.active = .int active → 1 ≤ active ∧ active ≤ k :=
    fun _ => Plan.active_mem_of_ofConfig hplan hk
  refine ⟨fun hfree => Plan.simulate_eq_ok_iff hfree hn hk hactive, fun s hdrawn => ?_⟩
  rw [simulate] at hdrawn
  cases hproblem : p.problem with
  | regression =>
    rw [hproblem] at hdrawn
    obtain ⟨-, X, Y, w, hsheet⟩ := takes_of_regression hproblem hn hk hdrawn
    exact Simulation.isRegression_of_regressionOf hsheet
  | portfolio =>
    rw [hproblem] at hdrawn
    obtain ⟨-, hsingle, returns, hsheet⟩ := takes_of_portfolio hproblem hn hk hdrawn
    exact Simulation.isPortfolio_of_portfolioOf hsingle hsheet

theorem unfailing_replaying (recorded : List Float) : (replaying recorded).Unfailing where
  places _ := answers_pure _
  uniform _ _ := fun _ => ⟨_, rfl⟩
  normal _ := fun _ => ⟨_, rfl⟩
  normalRows _ _ := fun _ => ⟨_, rfl⟩

/-- The configuration of a portfolio of `k` assets over three periods. -/
def portfolioConfig (k : Nat) : Value :=
  .record [("problem", .text "portfolio"), ("n", .int 3), ("k", .int k), ("n_active", .int 1)]

/-- The plan of that configuration. -/
def portfolioPlan (k : Nat) : Plan where
  problem := .portfolio
  n := .int 3
  k := .int k
  active := .int 1
  sigma := .float 0.1
  factorVol := .float 0.02
  seed := .int 42

theorem ofConfig_portfolioConfig {k : Nat} (hk : 1 ≤ k) :
    Plan.ofConfig (portfolioConfig k) = .ok (portfolioPlan k) := by
  have hcount : Plan.isActiveCount (.int 1) (.int k) = .ok true := by
    rw [Plan.isActiveCount_int]
    simpa using hk
  change (do
    let within ← liftM (Plan.isActiveCount (.int 1) (.int k))
    if within = true then pure (portfolioPlan k)
    else .error (.rejected .activeCount) : Except Error Plan) = _
  rw [hcount]
  rfl

/-- What a permuted congruential generator with the seed 42 draws first, to fifteen digits: six numbers
between zero and one, and nine normal numbers. -/
def recordedDraws : List Float := [
  0.773956048555963, 0.438878439752052, 0.858597919911382, 0.697368029059364, 0.0941773478876495,
  0.975622351636756, 0.127840403167285, -0.316242592343582, -0.0168011575042888,
  -0.853043927573580, 0.879397974862829, 0.777791935428948, 0.0660306975612162, 1.12724120696803,
  0.467509342252046]

/-- Two assets are drawn, and a study reads them. -/
theorem simulate_suits_pair :
    Plan.ofConfig (portfolioConfig 2) = .ok (portfolioPlan 2) ∧ (replaying recordedDraws).Unfailing ∧
      ∃ s, (portfolioPlan 2).simulate (replaying recordedDraws) .null = .ok s ∧
        s.IsPortfolio 3 2 := by
  have hplan := ofConfig_portfolioConfig (k := 2) (by decide)
  have htakes : (portfolioPlan 2).Takes .null 3 :=
    .of_numbers (m := 42) rfl (by decide +kernel) (.inl rfl) nofun
  obtain ⟨hiff, hsuits⟩ := Plan.simulate_suits (replaying recordedDraws) .null hplan
    (n := 3) (k := 2) rfl rfl
  have hfree := unfailing_replaying recordedDraws
  obtain ⟨s, hdrawn⟩ := (hiff hfree).mpr ⟨htakes, fun _ => by decide⟩
  exact ⟨hplan, hfree, s, hdrawn, hsuits s hdrawn⟩

/-- A plan may ask for a single asset, which no generator draws, of whatever seed. -/
theorem simulate_single_asset :
    Plan.ofConfig (portfolioConfig 1) = .ok (portfolioPlan 1) ∧
      (portfolioPlan 1).n = .int 3 ∧ (portfolioPlan 1).k = .int 1 ∧
      ∀ (g : Generator) seed s, (portfolioPlan 1).simulate g seed ≠ .ok s := by
  refine ⟨ofConfig_portfolioConfig le_rfl, rfl, rfl, ?_⟩
  intro g seed s hdrawn
  exact (Plan.takes_of_portfolio (n := 3) (k := 1) rfl rfl rfl hdrawn).2.1 rfl

end SparseWeights.Synthetic
