import SparseWeights.Proofs.Data.Sheet
import SparseWeights.Proofs.Linear.Vec

/-!
The portfolio in a sheet. The covariance that is read has a row and a column for each
column of the sheet, and each of its entries stands in the sheet under the label and in
the column that the entry belongs to, in whatever order the rows come and whatever other
rows there are. A sheet without a row for some column is not read at all.
-/

namespace SparseWeights.Sheet

/-- A sheet as a portfolio has it: its cells stand under distinct labels in distinct
columns, and one label, which is that of no column, is `mu`. -/
structure IsPortfolio (sheet : Sheet) : Prop where
  columns_nodup : sheet.columns.Nodup
  labels_nodup : (sheet.rows.map (·.1)).Nodup
  width : ∀ row ∈ sheet.rows, row.2.length = sheet.columns.length
  mean_mem : some "mu" ∈ sheet.rows.map (·.1)
  mean_not_mem : "mu" ∉ sheet.columns

/-- A cell stands under a label, in a column. -/
def Holds (sheet : Sheet) (label column : String) (cell : Cell) : Prop :=
  ∃ row, (some label, row) ∈ sheet.rows ∧ (column, cell) ∈ sheet.columns.zip row

/-- A number stands under a label, in a column. -/
def Reads (sheet : Sheet) (label column : String) (x : Float) : Prop :=
  ∃ cell, sheet.Holds label column cell ∧ cell.toFloat = .ok x

/-- The labels are the columns, and every number is the one under its label in its column. -/
def Aligned (sheet : Sheet) (data : Data) : Prop :=
  ∃ (Sigma : Mat Float sheet.columns.length sheet.columns.length)
      (mu : Vec Float sheet.columns.length),
    data = ⟨sheet.columns, .ofMat Sigma, .ofVec mu⟩ ∧
      (∀ j, sheet.Reads "mu" (sheet.columns.get j) (mu.get j)) ∧
      ∀ i j, sheet.Reads (sheet.columns.get i) (sheet.columns.get j) ((Sigma.get i).get j)

variable {sheet sheet' : Sheet}

section Numbers

variable {m n : ℕ}

theorem numbers_eq_ok_iff {row : List Cell} (hwidth : row.length = n) {values : List Float} :
    numbers row = .ok values ↔ ∃ v : Vec Float n, values = v.toList ∧
      ∀ j : Fin n, (row.get (j.cast hwidth.symm)).toFloat = .ok (v.get j) := by
  rw [numbers, mapM_eq_ok_iff, List.forall₂_iff_get]
  constructor
  · rintro ⟨hlength, hread⟩
    refine ⟨⟨values.toArray, by simp [← hlength, hwidth]⟩, rfl, fun j => ?_⟩
    exact hread j (by omega) (by omega)
  · rintro ⟨v, rfl, hread⟩
    refine ⟨by simp [hwidth], fun j hrow hvalues => ?_⟩
    simpa [Vec.get_eq_getElem] using hread ⟨j, by omega⟩

theorem mapM_numbers_eq_ok_iff {rows : Fin m → List Cell} (hwidth : ∀ i, (rows i).length = n)
    {values : List (List Float)} :
    (List.ofFn rows).mapM numbers = .ok values ↔
      ∃ A : Mat Float m n, values = A.toList.map Vector.toList ∧
        ∀ i j, ((rows i).get (j.cast (hwidth i).symm)).toFloat = .ok ((A.get i).get j) := by
  rw [mapM_eq_ok_iff, List.forall₂_iff_get]
  simp only [List.length_ofFn, List.get_ofFn]
  constructor
  · rintro ⟨hlength, hread⟩
    have hrow (i : Fin m) := (numbers_eq_ok_iff (hwidth i)).mp (hread i i.isLt (by omega))
    choose v hvalues hcells using hrow
    refine ⟨Vector.ofFn v, ?_, fun i j => by simpa using hcells i j⟩
    apply List.ext_getElem
    · simpa using hlength.symm
    · intro i hleft hright
      simpa using hvalues ⟨i, by omega⟩
  · rintro ⟨A, rfl, hread⟩
    refine ⟨by simp, fun i hi hvalues => ?_⟩
    refine (numbers_eq_ok_iff (hwidth ⟨i, hi⟩)).mpr ⟨A.get ⟨i, hi⟩, ?_, hread ⟨i, hi⟩⟩
    simp [Vec.get_eq_getElem]

end Numbers

/-- What is read depends on the rows under the columns' labels and `mu` alone. -/
theorem portfolio_congr (hcolumns : sheet.columns = sheet'.columns)
    (hrows : ∀ label ∈ "mu" :: sheet.columns, sheet.rowsAt label = sheet'.rowsAt label) :
    sheet.portfolio = sheet'.portfolio := by
  obtain ⟨hmean, hlabels⟩ := List.forall_mem_cons.mp hrows
  have hselect : (sheet.dropRows "mu").select sheet.columns =
      (sheet'.dropRows "mu").select sheet'.columns := by
    rw [← hcolumns]
    refine select_congr fun label hlabel => ?_
    rw [rowsAt_dropRows, rowsAt_dropRows, hlabels label hlabel]
  have halign : sheet.align = sheet'.align := by
    funext meanRows
    rw [align, align, hselect, hcolumns]
  rw [portfolio, portfolio, hmean, halign]

namespace IsPortfolio

variable (h : sheet.IsPortfolio)

include h

/-- A cell stands where its row has it. -/
theorem holds_iff {label : String} {row : List Cell} (hrow : (some label, row) ∈ sheet.rows)
    (j : Fin sheet.columns.length) {cell : Cell} :
    sheet.Holds label (sheet.columns.get j) cell ↔
      row.get (j.cast (h.width _ hrow).symm) = cell := by
  constructor
  · rintro ⟨other, hother, hcell⟩
    -- The label has one row, and the column one place.
    have hsame := rowsAt_of_mem h.labels_nodup hother
    rw [rowsAt_of_mem h.labels_nodup hrow, List.singleton_inj] at hsame
    subst hsame
    obtain ⟨i, hi, hentry⟩ := List.getElem_of_mem hcell
    rw [List.getElem_zip, Prod.mk.injEq] at hentry
    have hplace : i = j := (List.Nodup.getElem_inj_iff h.columns_nodup).mp hentry.1
    subst hplace
    exact hentry.2
  · rintro rfl
    refine ⟨row, hrow, ?_⟩
    have hwidth := h.width _ hrow
    rw [List.mem_iff_getElem]
    exact ⟨j, by simp [hwidth], by simp⟩

theorem reads_iff {label : String} {row : List Cell} (hrow : (some label, row) ∈ sheet.rows)
    (j : Fin sheet.columns.length) {x : Float} :
    sheet.Reads label (sheet.columns.get j) x ↔
      (row.get (j.cast (h.width _ hrow).symm)).toFloat = .ok x := by
  simp only [Reads, h.holds_iff hrow, exists_eq_left']

/-- With a row for every label, a portfolio is read from these rows. -/
theorem portfolio_eq {mean : List Cell} {rows : Fin sheet.columns.length → List Cell}
    (hmean : (some "mu", mean) ∈ sheet.rows)
    (hrows : ∀ i, (some (sheet.columns.get i), rows i) ∈ sheet.rows) :
    sheet.portfolio = liftM (do
      let mu ← numbers mean
      let values ← (List.ofFn rows).mapM numbers
      let matrix ← array sheet.columns.length values
      return ⟨sheet.columns, matrix, .ofList mu⟩ : Except Fault Data) := by
  have hselect : (sheet.dropRows "mu").select sheet.columns = .ok (List.ofFn rows) := by
    apply select_of_forall₂
    rw [List.forall₂_iff_get]
    refine ⟨by simp, fun i hi _ => ?_⟩
    have hne : sheet.columns.get ⟨i, hi⟩ ≠ "mu" := fun heq =>
      h.mean_not_mem (heq ▸ List.get_mem _ _)
    rw [rowsAt_dropRows, if_neg hne, rowsAt_of_mem h.labels_nodup (hrows ⟨i, hi⟩)]
    simp
  rw [portfolio, rowsAt_of_mem h.labels_nodup hmean]
  simp only [align, means, hselect, List.mapM_cons, List.mapM_nil]
  cases numbers mean <;> rfl

/-- Without a row for some column, nothing is read. -/
theorem portfolio_eq_error {label : String} (hlabel : label ∈ sheet.columns)
    (hnone : some label ∉ sheet.rows.map (·.1)) : ∃ cause, sheet.portfolio = .error cause := by
  have hselect : (sheet.dropRows "mu").select sheet.columns = .error .noLabel := by
    apply select_eq_error hlabel
    rw [rowsAt_dropRows, rowsAt_eq_nil_iff.mpr hnone, ite_self]
  cases hread : sheet.portfolio with
  | error cause => exact ⟨cause, rfl⟩
  | ok data =>
      obtain ⟨⟨_, mean⟩, hmean, rfl⟩ := List.mem_map.mp h.mean_mem
      rw [portfolio, rowsAt_of_mem h.labels_nodup hmean] at hread
      obtain ⟨_, _, halign⟩ := bind_eq_ok_iff.mp (liftM_fault_eq_ok_iff.mp hread)
      obtain ⟨_, hrows, _⟩ := bind_eq_ok_iff.mp halign
      rw [hselect] at hrows
      cases hrows

theorem portfolio_eq_ok_iff_of_rows {mean : List Cell}
    {rows : Fin sheet.columns.length → List Cell} (hmean : (some "mu", mean) ∈ sheet.rows)
    (hrows : ∀ i, (some (sheet.columns.get i), rows i) ∈ sheet.rows) (data : Data) :
    sheet.portfolio = .ok data ↔ sheet.Aligned data := by
  have hwidth (i : Fin sheet.columns.length) : (rows i).length = sheet.columns.length :=
    h.width _ (hrows i)
  rw [h.portfolio_eq hmean hrows, liftM_fault_eq_ok_iff, Aligned]
  simp only [bind_eq_ok_iff, numbers_eq_ok_iff (h.width _ hmean), mapM_numbers_eq_ok_iff hwidth,
    h.reads_iff hmean, h.reads_iff (hrows _)]
  constructor
  · rintro ⟨_, ⟨mu, rfl, hmu⟩, _, ⟨Sigma, rfl, hSigma⟩, matrix, hmatrix, hdata⟩
    rw [array_toList, Except.ok.injEq] at hmatrix
    subst hmatrix
    exact ⟨Sigma, mu, (Except.ok.inj hdata).symm, hmu, hSigma⟩
  · rintro ⟨Sigma, mu, rfl, hmu, hSigma⟩
    exact ⟨_, ⟨mu, rfl, hmu⟩, _, ⟨Sigma, rfl, hSigma⟩, _, array_toList Sigma, rfl⟩

/-- The data of a portfolio are those that stand under the labels of its columns. -/
theorem portfolio_eq_ok_iff (data : Data) : sheet.portfolio = .ok data ↔ sheet.Aligned data := by
  obtain ⟨⟨_, mean⟩, hmean, rfl⟩ := List.mem_map.mp h.mean_mem
  by_cases hall : ∀ i, ∃ row, (some (sheet.columns.get i), row) ∈ sheet.rows
  · choose rows hrows using hall
    exact h.portfolio_eq_ok_iff_of_rows hmean hrows data
  · obtain ⟨i, hi⟩ := not_forall.mp hall
    constructor
    · intro hread
      have hnone : some (sheet.columns.get i) ∉ sheet.rows.map (·.1) := by
        simpa using hi
      obtain ⟨cause, herror⟩ := h.portfolio_eq_error (List.get_mem _ _) hnone
      rw [hread] at herror
      cases herror
    · rintro ⟨Sigma, mu, _, _, hSigma⟩
      obtain ⟨_, ⟨row, hrow, _⟩, _⟩ := hSigma i i
      exact absurd ⟨row, hrow⟩ hi

/-- A portfolio with a row for every column is read where the cells that are looked at are
numbers. -/
theorem exists_portfolio_eq_ok
    (hlabels : ∀ label ∈ sheet.columns, some label ∈ sheet.rows.map (·.1))
    (hnumbers : ∀ label ∈ "mu" :: sheet.columns, ∀ column cell,
      sheet.Holds label column cell → ∃ x, cell.toFloat = .ok x) :
    ∃ data, sheet.portfolio = .ok data := by
  have hreads (label : String) (hlabel : label ∈ "mu" :: sheet.columns)
      (hmem : some label ∈ sheet.rows.map (·.1)) (j : Fin sheet.columns.length) :
      ∃ x, sheet.Reads label (sheet.columns.get j) x := by
    obtain ⟨⟨_, row⟩, hrow, rfl⟩ := List.mem_map.mp hmem
    have hcell := (h.holds_iff hrow j).mpr rfl
    obtain ⟨x, hx⟩ := hnumbers label hlabel _ _ hcell
    exact ⟨x, _, hcell, hx⟩
  choose mu hmu using hreads "mu" List.mem_cons_self h.mean_mem
  choose Sigma hSigma using fun i =>
    hreads (sheet.columns.get i) (List.mem_cons_of_mem _ (List.get_mem _ _))
      (hlabels _ (List.get_mem _ _))
  refine ⟨_, (h.portfolio_eq_ok_iff _).mpr
    ⟨Vector.ofFn fun i => Vector.ofFn (Sigma i), Vector.ofFn mu, rfl, fun j => ?_,
      fun i j => ?_⟩⟩
  · simpa using hmu j
  · simpa using hSigma i j

/-- Rows that are added do not matter to a portfolio that has all of its own. -/
theorem portfolio_eq_of_subset (h' : sheet'.IsPortfolio)
    (hlabels : ∀ label ∈ sheet.columns, some label ∈ sheet.rows.map (·.1))
    (hcolumns : sheet'.columns = sheet.columns) (hrows : sheet.rows ⊆ sheet'.rows) :
    sheet'.portfolio = sheet.portfolio := by
  refine portfolio_congr hcolumns fun label hlabel => ?_
  have hmem : some label ∈ sheet.rows.map (·.1) := by
    rcases List.mem_cons.mp hlabel with rfl | hcolumn
    · exact h.mean_mem
    · exact hlabels label (hcolumns ▸ hcolumn)
  obtain ⟨⟨_, row⟩, hrow, rfl⟩ := List.mem_map.mp hmem
  rw [rowsAt_of_mem h.labels_nodup hrow, rowsAt_of_mem h'.labels_nodup (hrows hrow)]

/-- The order of the rows does not matter. -/
theorem portfolio_eq_of_perm {rows : List (Option String × List Cell)}
    (hperm : rows.Perm sheet.rows) :
    (Sheet.mk sheet.columns rows).portfolio = sheet.portfolio := by
  refine portfolio_congr rfl fun label _ => ?_
  have hlabels := hperm.map (·.1)
  by_cases hmem : some label ∈ sheet.rows.map (·.1)
  · obtain ⟨⟨_, row⟩, hrow, rfl⟩ := List.mem_map.mp hmem
    rw [rowsAt_of_mem h.labels_nodup hrow,
      rowsAt_of_mem (hlabels.nodup_iff.mpr h.labels_nodup) (hperm.mem_iff.mpr hrow)]
  · rw [rowsAt_eq_nil_iff.mpr hmem, rowsAt_eq_nil_iff.mpr (mt hlabels.mem_iff.mp hmem)]

end IsPortfolio

/-- Of a portfolio with a row for every column the data are the numbers under the labels of
the columns and under `mu`. Neither the order of the rows nor a row under another label
changes them. Without a row for some column nothing is read. -/
theorem portfolio_by_labels (h : sheet.IsPortfolio) :
    (∀ data, sheet.portfolio = .ok data ↔ sheet.Aligned data) ∧
      (∀ rows : List (Option String × List Cell), rows.Perm sheet.rows →
        (Sheet.mk sheet.columns rows).portfolio = sheet.portfolio) ∧
      ((∀ label ∈ sheet.columns, some label ∈ sheet.rows.map (·.1)) →
        ((∀ label ∈ "mu" :: sheet.columns, ∀ column cell, sheet.Holds label column cell →
          ∃ x, cell.toFloat = .ok x) → ∃ data, sheet.portfolio = .ok data) ∧
        ∀ sheet' : Sheet, sheet'.IsPortfolio → sheet'.columns = sheet.columns →
          sheet.rows ⊆ sheet'.rows → sheet'.portfolio = sheet.portfolio) ∧
      ∀ label ∈ sheet.columns, some label ∉ sheet.rows.map (·.1) →
        ∃ cause, sheet.portfolio = .error cause := by
  refine ⟨h.portfolio_eq_ok_iff, fun _ => h.portfolio_eq_of_perm, fun hlabels => ?_,
    fun _ => h.portfolio_eq_error⟩
  exact ⟨h.exists_portfolio_eq_ok hlabels, fun _ h' => h.portfolio_eq_of_subset h' hlabels⟩

/-- The expected returns come first, the covariance below them in another order, and among its
rows one under the label of no column. -/
def shuffled : Sheet where
  columns := ["a", "b"]
  rows := [(some "mu", [.number 5, .number 6]), (some "b", [.number 3, .number 4]),
    (some "c", [.missing, .missing]), (some "a", [.number 1, .number 2])]

theorem portfolio_by_labels_shuffled :
    shuffled.IsPortfolio ∧
      shuffled.portfolio = .ok ⟨["a", "b"], .ofMat #v[#v[1, 2], #v[3, 4]], .ofVec #v[5, 6]⟩ := by
  have h : shuffled.IsPortfolio := by
    refine ⟨by decide, by decide, ?_, by decide, by decide⟩
    simp [shuffled]
  have hmean : (some "mu", [.number 5, .number 6]) ∈ shuffled.rows := by simp [shuffled]
  have ha : (some "a", [.number 1, .number 2]) ∈ shuffled.rows := by simp [shuffled]
  have hb : (some "b", [.number 3, .number 4]) ∈ shuffled.rows := by simp [shuffled]
  have hreads {label : String} {x y : Float}
      (hrow : (some label, [.number x, .number y]) ∈ shuffled.rows) (j : Fin 2) :
      shuffled.Reads label (shuffled.columns.get j) (#v[x, y].get j) := by
    fin_cases j
    · exact (h.reads_iff hrow ⟨0, by decide⟩).mpr rfl
    · exact (h.reads_iff hrow ⟨1, by decide⟩).mpr rfl
  refine ⟨h, ((portfolio_by_labels h).1 _).mpr ⟨#v[#v[1, 2], #v[3, 4]], #v[5, 6], rfl,
    hreads hmean, fun i => ?_⟩⟩
  fin_cases i
  · exact hreads ha
  · exact hreads hb

end SparseWeights.Sheet
