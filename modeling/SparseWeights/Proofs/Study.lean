import SparseWeights.Proofs.Program.Accepted
import SparseWeights.Proofs.Solve
import SparseWeights.Study

/-!
The size of a study. A study has a label for every weight: the matrix of the
problem is an array with a column for each label, and the program that is made of
it has a weight for each column.
-/

namespace SparseWeights

namespace Program

variable {α : Type} [Scalar α]

theorem size_of_ofObjective {n : ℕ} {objective : Objective α n} {s : Sized α}
    (h : ofObjective objective = .ok s) : s.1 = n := by
  obtain ⟨p, -, rfl⟩ := ofObjective_eq_ok_iff.mp h
  rfl

theorem size_of_designOf {t : Tensor α} {rows columns m n : ℕ} {design : Mat α m n}
    (hshape : t.shape = [rows, columns]) (h : designOf t = .ok ⟨m, n, design⟩) : n = columns := by
  rw [designOf, if_neg (by rw [hshape]; exact Nat.succ_ne_self 1)] at h
  split at h
  next => cases h
  next m' n' X hmat =>
    rw [Tensor.toMat?, hshape] at hmat
    cases hmat
    split at h
    · cases h
      rfl
    · cases h

theorem size_of_covarianceOf {t : Tensor α} {rows columns n : ℕ} {covariance : Mat α n n}
    (hshape : t.shape = [rows, columns]) (h : covarianceOf t = .ok ⟨n, covariance⟩) :
    n = columns := by
  rw [covarianceOf] at h
  split at h
  next => cases h
  next m' n' Sigma hmat =>
    rw [Tensor.toMat?, hshape] at hmat
    cases hmat
    split at h
    next hsquare =>
      split at h
      · cases h
        rfl
      · cases h
    next => cases h

/-- A regression has as many weights as its design has columns. -/
theorem size_of_regression {X Y : Tensor α} {rows columns : ℕ} {s : Sized α}
    (hshape : X.shape = [rows, columns]) (h : regression (.ok X) (.ok Y) = .ok s) :
    s.1 = columns := by
  obtain ⟨m, n, design, response, hdesign, -, hbuilt⟩ := regression_eq_ok_iff.mp h
  rw [size_of_ofObjective hbuilt, size_of_designOf hshape hdesign]

/-- A portfolio has as many weights as its covariance has columns. -/
theorem size_of_portfolio {Sigma mu : Tensor α} {phi : α} {tolerance : Option α}
    {rows columns : ℕ} {s : Sized α} (hshape : Sigma.shape = [rows, columns])
    (h : portfolio (.ok Sigma) (.ok mu) (.ok phi) (.ok tolerance) = .ok s) : s.1 = columns := by
  obtain ⟨n, covariance, mean, hcovariance, -, -, -, hbuilt⟩ := portfolio_eq_ok_iff.mp h
  rw [size_of_ofObjective hbuilt, size_of_covarianceOf hshape hcovariance]

end Program

/-- A job has the size of its program. -/
theorem Solve.exists_program_of_job {p : Except Error (Program.Sized Float)}
    {request : Solve.Request} {settings : Except Error (Settings Float)} {start : Value}
    {job : SizedJob} (h : Solve.job p request settings start = .ok job) :
    ∃ s, p = .ok s ∧ s.1 = job.1 := by
  obtain ⟨s, hs, h⟩ := bind_eq_ok_iff.mp h
  obtain ⟨spec, -, h⟩ := bind_eq_ok_iff.mp h
  obtain ⟨settings, -, h⟩ := bind_eq_ok_iff.mp h
  refine ⟨s, hs, ?_⟩
  obtain ⟨n, program⟩ := s
  obtain ⟨penalty, -, h⟩ := bind_eq_ok_iff.mp h
  obtain ⟨first, -, h⟩ := bind_eq_ok_iff.mp h
  split at h
  · cases h
    rfl
  · cases h

namespace Sheet

theorem shape_of_array {width : ℕ} {rows : List (List Float)} {t : Tensor Float}
    (h : array width rows = .ok t) : t.shape = [rows.length, width] := by
  rw [array, Tensor.ofEntries?] at h
  split at h
  · cases h
    rfl
  · cases h

/-- The matrix of a sheet has a column for each label. -/
theorem shape_of_splitAt {sheet : Sheet} {place : ℕ} {data : Data}
    (h : sheet.splitAt place = .ok data) : ∃ rows, data.matrix.shape = [rows, data.labels.length] := by
  obtain ⟨features, -, h⟩ := bind_eq_ok_iff.mp h
  obtain ⟨matrix, hmatrix, h⟩ := bind_eq_ok_iff.mp h
  obtain ⟨responses, -, h⟩ := bind_eq_ok_iff.mp h
  cases h
  exact ⟨_, shape_of_array hmatrix⟩

theorem shape_of_align {sheet : Sheet} {meanRows : List (List Cell)} {data : Data}
    (h : sheet.align meanRows = .ok data) : ∃ rows, data.matrix.shape = [rows, data.labels.length] := by
  obtain ⟨vector, -, h⟩ := bind_eq_ok_iff.mp h
  obtain ⟨rows, -, h⟩ := bind_eq_ok_iff.mp h
  obtain ⟨numbers, -, h⟩ := bind_eq_ok_iff.mp h
  obtain ⟨matrix, hmatrix, h⟩ := bind_eq_ok_iff.mp h
  cases h
  exact ⟨_, shape_of_array hmatrix⟩

theorem shape_of_regression {sheet : Sheet} {response : String} {data : Data}
    (h : sheet.regression response = .ok data) :
    ∃ rows, data.matrix.shape = [rows, data.labels.length] := by
  rw [Sheet.regression] at h
  split at h
  · cases h
  · exact shape_of_splitAt (liftM_fault_eq_ok_iff.mp h)

theorem shape_of_portfolio {sheet : Sheet} {data : Data} (h : sheet.portfolio = .ok data) :
    ∃ rows, data.matrix.shape = [rows, data.labels.length] := by
  rw [Sheet.portfolio] at h
  split at h
  · cases h
  · exact shape_of_align (liftM_fault_eq_ok_iff.mp h)

end Sheet

/-- A study has as many weights as labels. -/
theorem Study.length_labels {config : Value} {data : Except Fault String} {labels : List String}
    {job : SizedJob} (h : Study.job config data = .ok (labels, job)) : labels.length = job.1 := by
  rw [Study.job.eq_def] at h
  split at h
  next config =>
    obtain ⟨settings, -, h⟩ := bind_eq_ok_iff.mp h
    dsimp only at h
    split at h
    · obtain ⟨text, -, h⟩ := bind_eq_ok_iff.mp h
      obtain ⟨sheet, -, h⟩ := bind_eq_ok_iff.mp h
      obtain ⟨data, hdata, h⟩ := bind_eq_ok_iff.mp h
      obtain ⟨made, hjob, h⟩ := bind_eq_ok_iff.mp h
      cases h
      obtain ⟨rows, hshape⟩ := Sheet.shape_of_regression hdata
      obtain ⟨s, hs, hsize⟩ := Solve.exists_program_of_job hjob
      rw [← hsize, Program.size_of_regression hshape hs]
    · split at h
      · obtain ⟨text, -, h⟩ := bind_eq_ok_iff.mp h
        obtain ⟨sheet, -, h⟩ := bind_eq_ok_iff.mp h
        obtain ⟨data, hdata, h⟩ := bind_eq_ok_iff.mp h
        obtain ⟨phi, -, h⟩ := bind_eq_ok_iff.mp h
        obtain ⟨made, hjob, h⟩ := bind_eq_ok_iff.mp h
        cases h
        obtain ⟨rows, hshape⟩ := Sheet.shape_of_portfolio hdata
        obtain ⟨s, hs, hsize⟩ := Solve.exists_program_of_job hjob
        rw [← hsize, Program.size_of_portfolio hshape hs]
      · cases h
  next => cases h

end SparseWeights
