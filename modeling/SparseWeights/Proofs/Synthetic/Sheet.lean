import SparseWeights.Proofs.Data.Sheet
import SparseWeights.Proofs.Data.Tensor
import SparseWeights.Proofs.Decimal.Digits
import SparseWeights.Synthetic.Simulation

/-!
The sheets of simulations, as studies read them. The names of features and
assets are distinct, and none of them is the name that is reserved for the
response or for the expected returns; so every column and every row is found
under its own name, and the arrays that were drawn come back in their shapes.
-/

namespace SparseWeights

namespace Synthetic

theorem numberedNames_nodup (letter : String) (k : Nat) : (numberedNames letter k).Nodup := by
  refine List.Nodup.map ?_ List.nodup_range
  intro i j hij
  exact Nat.succ_injective (Decimal.natText_injective ((String.append_right_inj letter).mp hij))

@[simp] theorem length_numberedNames (letter : String) (k : Nat) :
    (numberedNames letter k).length = k := by
  simp [numberedNames]

/-- A word that starts with another character is no numbered name. -/
theorem not_mem_numberedNames {letter word : String} (k : Nat) (hletter : letter.toList ≠ [])
    (hhead : letter.toList.head? ≠ word.toList.head?) : word ∉ numberedNames letter k := by
  intro hmem
  obtain ⟨j, _, rfl⟩ := List.mem_map.mp hmem
  rw [String.toList_append, List.head?_append_of_ne_nil _ hletter] at hhead
  exact hhead rfl

end Synthetic

namespace Sheet

variable {m n : Nat} {columns labels : List String}

theorem numbers_cells (row : List Float) : numbers (cells row) = .ok row := by
  have hread := mapM_map_eq_ok (f := Cell.toFloat) (g := Cell.number) (h := id)
    fun x (_ : x ∈ row) => rfl
  rwa [List.map_id] at hread

/-- A matrix makes a sheet of its rows, if there are as many labels and names. -/
theorem ofTensor_ofMat (A : Mat Float m n) (labels? : Option (List String))
    (hlabels : (labels?.getD ((List.range m).map Decimal.natText)).length = m)
    (hcolumns : columns.length = n) :
    ofTensor labels? columns (.ofMat A) =
      .ok ⟨columns, ((labels?.getD ((List.range m).map Decimal.natText)).map some).zip
        (A.toList.map fun row => cells row.toList)⟩ := by
  have hrows : (Tensor.pieces n m (Tensor.ofMat A).entries).map cells =
      A.toList.map fun row => cells row.toList := by
    rw [Tensor.pieces_ofMat, List.map_map]
    rfl
  rw [ofTensor, ← hrows]
  exact if_pos ⟨hlabels, hcolumns⟩

/-- An array without axes makes no sheet. -/
theorem ofTensor_scalar (labels? : Option (List String)) {t : Tensor Float} (ht : t.shape = []) :
    ofTensor labels? columns t = .error .shapeMismatch := by
  rw [ofTensor, ht]
  rfl

theorem putColumn_of_not_mem {name : String} {column : List Cell} {sheet : Sheet}
    (hname : name ∉ sheet.columns) (hlength : column.length = sheet.rows.length) :
    sheet.putColumn name column = .ok ⟨sheet.columns ++ [name],
      List.zipWith (fun row cell => (row.1, row.2 ++ [cell])) sheet.rows column⟩ := by
  rw [putColumn, if_pos hlength, List.idxOf?_eq_none_iff.mpr hname]

theorem putRow_of_not_mem {label : String} {row : List Cell} {sheet : Sheet}
    (hlabel : some label ∉ sheet.rows.map (·.1)) (hlength : row.length = sheet.columns.length) :
    sheet.putRow label row = .ok ⟨sheet.columns, sheet.rows ++ [(some label, row)]⟩ := by
  have hnone : ¬ (sheet.rows.any fun row => row.1 == some label) = true := by
    rw [List.any_eq_true]
    rintro ⟨other, hother, heq⟩
    exact hlabel (List.mem_map.mpr ⟨other, hother, beq_iff_eq.mp heq⟩)
  rw [putRow, if_pos hlength, if_neg hnone]

/-- Rows under distinct labels are found by them, whatever their order. -/
theorem select_zip {rows : List (List Cell)} (hlabels : labels.Nodup)
    (hlength : labels.length = rows.length) :
    (Sheet.mk columns ((labels.map some).zip rows)).select labels = .ok rows := by
  apply select_of_forall₂
  rw [List.forall₂_iff_zip]
  refine ⟨hlength, fun hmem => ?_⟩
  have hgiven : (((labels.map some).zip rows).map (·.1)).Nodup := by
    rw [List.map_fst_zip (by simp [hlength])]
    exact hlabels.map (Option.some_injective _)
  refine rowsAt_of_mem hgiven ?_
  rw [← List.map_id rows, List.zip_map]
  exact List.mem_map.mpr ⟨_, hmem, rfl⟩

end Sheet

namespace Synthetic

open Sheet (cells)

variable {n k : Nat}

/-- Features and a response, side by side. -/
def regressionSheet (X : Mat Float n k) (Y : Vec Float n) : Sheet where
  columns := numberedNames "x" k ++ ["y"]
  rows := List.ofFn fun i : Fin n =>
    (some (Decimal.natText i), cells ((X.get i).toList ++ [Y.get i]))

/-- A covariance with expected returns below it. -/
def portfolioSheet (Sigma : Mat Float k k) (mu : Vec Float k) : Sheet where
  columns := numberedNames "a" k
  rows := ((numberedNames "a" k).map some).zip (Sigma.toList.map fun row => cells row.toList) ++
    [(some "mu", cells mu.toList)]

theorem regressionOf_eq_ok (X : Mat Float n k) (Y : Vec Float n) (weights : Vec Float k) :
    regressionOf X Y weights = .ok ⟨regressionSheet X Y,
      [("X", .ofMat X), ("Y", .ofVec Y), ("w_true", .ofVec weights)]⟩ := by
  have hy : "y" ∉ numberedNames "x" k := not_mem_numberedNames k (by decide) (by decide)
  have hrows : List.zipWith (fun row cell => (row.1, row.2 ++ [cell]))
      ((((List.range n).map Decimal.natText).map some).zip
        (X.toList.map fun row => cells row.toList)) (cells Y.toList) =
      (regressionSheet X Y).rows := by
    apply List.ext_getElem
    · simp [regressionSheet, cells]
    · intro i hi _
      simp [regressionSheet, cells, Vec.get_eq_getElem]
  rw [regressionOf, Sheet.ofTensor_ofMat X none (by simp) (length_numberedNames "x" k)]
  change (Sheet.putColumn _ _ _ >>= _) = _
  rw [Sheet.putColumn_of_not_mem hy (by simp [cells]), Option.getD_none, hrows]
  rfl

theorem squeeze_ofMat (A : Mat Float k k) (hk : k ≠ 1) : (Tensor.ofMat A).squeeze = .ofMat A := by
  simp [Tensor.squeeze, Tensor.ofMat, hk]

/-- A matrix of a single entry has no axes left. -/
theorem shape_squeeze_single (A : Mat Float 1 1) : (Tensor.ofMat A).squeeze.shape = [] := rfl

theorem portfolioOf_eq_ok (returns : Mat Float n k) (hk : k ≠ 1) :
    portfolioOf returns = .ok ⟨portfolioSheet (covariance returns) (columnMeans returns),
      [("Sigma", .ofMat (covariance returns)), ("mu", .ofVec (columnMeans returns)),
        ("returns", .ofMat returns)]⟩ := by
  have hlength := length_numberedNames "a" k
  have hmu : some "mu" ∉ (((numberedNames "a" k).map some).zip
      ((covariance returns).toList.map fun row => cells row.toList)).map (·.1) := by
    have hnot : "mu" ∉ numberedNames "a" k := not_mem_numberedNames k (by decide) (by decide)
    rw [List.map_fst_zip (by simp)]
    simpa using hnot
  rw [portfolioOf, squeeze_ofMat _ hk,
    Sheet.ofTensor_ofMat (covariance returns) (some (numberedNames "a" k)) hlength hlength]
  change (Sheet.putRow _ _ _ >>= _) = _
  rw [Sheet.putRow_of_not_mem hmu (by simp [cells])]
  rfl

/-- The covariance of a single asset is an array without axes, which no sheet can hold. -/
theorem portfolioOf_single (returns : Mat Float n 1) :
    portfolioOf returns = .error .shapeMismatch := by
  rw [portfolioOf, Sheet.ofTensor_scalar _ (shape_squeeze_single (covariance returns))]
  rfl

/-- The sheet of a regression is split into its features and its response. -/
theorem regression_sheet (X : Mat Float n k) (Y : Vec Float n) :
    (regressionSheet X Y).regression "y" = .ok ⟨numberedNames "x" k, .ofMat X, .ofVec Y⟩ := by
  have hy : "y" ∉ numberedNames "x" k := not_mem_numberedNames k (by decide) (by decide)
  have hplace : (regressionSheet X Y).columnIndex? "y" = some k := by
    have hnames : (numberedNames "x" k).findIdx? (· == "y") = none := by
      rw [List.findIdx?_eq_none_iff]
      intro name hname
      have hne : name ≠ "y" := fun heq => hy (heq ▸ hname)
      simpa using hne
    simp [Sheet.columnIndex?, regressionSheet, List.idxOf?, List.findIdx?_append, hnames]
  have hlabels : (regressionSheet X Y).columns.eraseIdx k = numberedNames "x" k := by
    rw [regressionSheet, List.eraseIdx_append_of_length_le (by simp)]
    simp
  have hfeatures : (regressionSheet X Y).rows.mapM
      (fun row => Sheet.numbers (row.2.eraseIdx k)) = .ok (X.toList.map Vector.toList) := by
    rw [Vec.toList_eq_ofFn X, List.map_ofFn, List.ofFn_eq_map]
    simp only [regressionSheet, List.ofFn_eq_map]
    apply mapM_map_eq_ok
    intro i _
    rw [cells, List.map_append, List.eraseIdx_append_of_length_le (by simp)]
    simpa [cells] using Sheet.numbers_cells (X.get i).toList
  have hresponses : Sheet.numbers ((regressionSheet X Y).rows.map
      fun row => (row.2[k]?).getD .missing) = .ok Y.toList := by
    rw [← Sheet.numbers_cells, Vec.toList_eq_ofFn Y, cells, List.map_ofFn]
    simp only [regressionSheet, List.map_ofFn]
    congr 2
    funext i
    simp [cells]
  rw [Sheet.regression, hplace]
  have hsplit : (regressionSheet X Y).splitAt k =
      .ok ⟨numberedNames "x" k, .ofMat X, .ofVec Y⟩ := by
    simp only [Sheet.splitAt, hlabels, hfeatures, hresponses, length_numberedNames, bind,
      Except.bind, Sheet.array_toList]
    rfl
  simp only [hsplit]
  rfl

/-- The sheet of a portfolio is split into its covariance and its expected returns. -/
theorem portfolio_sheet (Sigma : Mat Float k k) (mu : Vec Float k) :
    (portfolioSheet Sigma mu).portfolio = .ok ⟨numberedNames "a" k, .ofMat Sigma, .ofVec mu⟩ := by
  have hmu : "mu" ∉ numberedNames "a" k := not_mem_numberedNames k (by decide) (by decide)
  have hmeans : (portfolioSheet Sigma mu).rowsAt "mu" = [cells mu.toList] := by
    have hgiven : ((portfolioSheet Sigma mu).rows.map (·.1)).Nodup := by
      rw [portfolioSheet, List.map_append, List.map_fst_zip (by simp)]
      have hnames := (numberedNames_nodup "a" k).map (Option.some_injective _)
      have hother : ∀ name ∈ numberedNames "a" k, ¬name = "mu" :=
        fun name hname heq => hmu (heq ▸ hname)
      simpa [List.nodup_append, hnames] using hother
    exact Sheet.rowsAt_of_mem hgiven (by simp [portfolioSheet])
  have hdrop : (portfolioSheet Sigma mu).dropRows "mu" =
      ⟨numberedNames "a" k, ((numberedNames "a" k).map some).zip
        (Sigma.toList.map fun row => cells row.toList)⟩ := by
    have hkept : ∀ row ∈ ((numberedNames "a" k).map some).zip
        (Sigma.toList.map fun row => cells row.toList), (row.1 != some "mu") = true := by
      rintro ⟨label, row⟩ hmem
      obtain ⟨name, hname, rfl⟩ := List.mem_map.mp (List.of_mem_zip hmem).1
      have hne : name ≠ "mu" := fun heq => hmu (heq ▸ hname)
      simpa using hne
    rw [Sheet.dropRows, portfolioSheet, List.filter_append, List.filter_eq_self.mpr hkept]
    simp
  have hselect : (Sheet.mk (numberedNames "a" k) (((numberedNames "a" k).map some).zip
      (Sigma.toList.map fun row => cells row.toList))).select (numberedNames "a" k) =
        .ok (Sigma.toList.map fun row => cells row.toList) :=
    Sheet.select_zip (numberedNames_nodup "a" k) (by simp)
  have hnumbers : (Sigma.toList.map fun row => cells row.toList).mapM Sheet.numbers =
      .ok (Sigma.toList.map Vector.toList) :=
    mapM_map_eq_ok fun row _ => Sheet.numbers_cells row.toList
  have hcolumns : (portfolioSheet Sigma mu).columns = numberedNames "a" k := rfl
  have halign : (portfolioSheet Sigma mu).align [cells mu.toList] =
      .ok ⟨numberedNames "a" k, .ofMat Sigma, .ofVec mu⟩ := by
    have hmean : [cells mu.toList].mapM Sheet.numbers = .ok [mu.toList] :=
      mapM_map_eq_ok fun row (_ : row ∈ [mu.toList]) => Sheet.numbers_cells row
    simp only [Sheet.align, Sheet.means, hdrop, hcolumns, hselect, hnumbers, hmean,
      length_numberedNames, bind, Except.bind, Sheet.array_toList]
    rfl
  simp only [Sheet.portfolio, hmeans, halign]
  rfl

end Synthetic

end SparseWeights
