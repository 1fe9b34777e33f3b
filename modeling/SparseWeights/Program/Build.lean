import SparseWeights.Data.Tensor
import SparseWeights.Error
import SparseWeights.Program.Basic

/-!
Programs from arrays. The checks are made in the order of the arguments, and an argument that could not
be read is reported when its turn comes. A regression takes a vector as a design with one column; a
portfolio takes a covariance that is symmetric up to a relative tolerance.
-/

namespace SparseWeights

variable {α : Type} [Scalar α]

namespace Program

abbrev Sized (α : Type) [Scalar α] := (n : Nat) × Program α n

/-- A finite vector: an array with one axis, or with two of which one has length one. -/
def vectorOf (name : String) (t : Tensor α) : Except Invalid ((n : Nat) × Vec α n) :=
  match t.vector? with
  | none => .error (.notVector name)
  | some ⟨n, v⟩ => if Vec.allFinite v then .ok ⟨n, v⟩ else .error (.notFinite name)

/-- A finite design matrix. -/
def designOf (t : Tensor α) : Except Invalid ((m : Nat) × (n : Nat) × Mat α m n) :=
  match (if t.shape.length = 1 then t.column else t).toMat? with
  | none => .error .designNotMatrix
  | some ⟨m, n, X⟩ => if Mat.allFinite X then .ok ⟨m, n, X⟩ else .error (.notFinite "X")

def covarianceOf (t : Tensor α) : Except Invalid ((n : Nat) × Mat α n n) :=
  match t.toMat? with
  | none => .error .covarianceNotSquare
  | some ⟨m, n, Sigma⟩ =>
    if h : m = n then
      if Mat.allFinite Sigma then .ok ⟨n, Sigma.cast h⟩ else .error (.notFinite "Sigma")
    else .error .covarianceNotSquare

/-- Whether a matrix is symmetric up to a tolerance relative to its largest entry, at least one. -/
def isSymmetricWithin {n : Nat} (tolerance : α) (Sigma : Mat α n n) : Bool :=
  !decide (tolerance * Scalar.larger 1 (Mat.maxAbs Sigma) < Mat.asymmetry Sigma)

def ofObjective {n : Nat} (objective : Objective α n) : Except Error (Sized α) :=
  match ofObjective? objective with
  | some p => .ok ⟨n, p⟩
  | none => .error (.singular (.quadratic objective.name))

def regression (X Y : Except Fault (Tensor α)) : Except Error (Sized α) := do
  let ⟨m, _, X⟩ ← designOf (← X)
  let ⟨l, Y⟩ ← vectorOf "Y" (← Y)
  if h : l = m then ofObjective (.leastSquares X (Y.cast h))
  else .error (.invalid (.rowCount m l))

/-- The program of a portfolio. Without a tolerance the covariance is not compared with its
transpose. -/
def portfolio (Sigma mu : Except Fault (Tensor α)) (phi : Except Fault α)
    (tolerance : Except Fault (Option α)) : Except Error (Sized α) := do
  let ⟨n, Sigma⟩ ← covarianceOf (← Sigma)
  let tolerance ← tolerance
  if tolerance.any fun t => !isSymmetricWithin t Sigma then .error (.invalid .covarianceNotSymmetric)
  else
    let ⟨l, mu⟩ ← vectorOf "mu" (← mu)
    if h : l = n then
      let phi ← phi
      if Scalar.isPositive phi then ofObjective (.meanVariance Sigma (mu.cast h) phi)
      else .error (.invalid .riskAversion)
    else .error (.invalid (.meanLength l n))

end Program

def Factor.solveColumns {n p : Nat} (L : Factor α n) (B : Mat α n p) : Mat α n p :=
  Mat.transpose ((Mat.transpose B).map L.solve)

/-- Solves a system for every column of the matrices along the leading axes of an array; `none` if they
do not have as many rows as the system. -/
def Factor.solveStack? {n : Nat} (L : Factor α n) (b : Tensor α) : Option (Tensor α) := do
  let (leading, m, p) ← Tensor.columnAxes? b.shape
  if m = n then
    let blocks := Tensor.pieces (n * p) (volume leading) b.entries
    Tensor.ofEntries? b.shape (blocks.flatMap fun block =>
      (Tensor.ofMat (L.solveColumns (Tensor.matrixOf n p block))).entries)
  else none

/-- Solves a system for a vector, for every column of a matrix, or for those of a stack of matrices. -/
def Factor.solveAt {n : Nat} (L : Factor α n) (b : Tensor α) : Except Fault (Tensor α) :=
  if !b.flat.all Scalar.isFinite then .error .notFinite
  else
    match b.shape, b.asVec? n, b.toMat? with
    | [], _, _ => .error .noAxis
    | _, some v, _ => .ok (.ofVec (L.solve v))
    | _, none, some ⟨m, _, B⟩ =>
      if h : m = n then .ok (.ofMat (L.solveColumns (B.cast h))) else .error .shapeMismatch
    | _, none, none => (L.solveStack? b).elim (.error .shapeMismatch) .ok

/-- The value of an objective at an array, by the products of arrays. -/
def Objective.valueAt {n : Nat} (o : Objective α n) (w : Tensor α) : Except Fault α :=
  match w.asVec? n, o with
  | some w, o => .ok (o.value w)
  | none, .leastSquares X Y => do
    let fitted ← Tensor.matmul (.ofMat X) w
    let residual ← Tensor.zipWith (fun y x => y - x) (.ofVec Y) fitted
    let square ← (← residual.matmul residual).toNumber
    .ok (Scalar.half * square)
  | none, .meanVariance Sigma mu phi => do
    let variance ← (← (← w.matmul (.ofMat Sigma)).matmul w).toNumber
    let mean ← (← Tensor.matmul (.ofVec mu) w).toNumber
    .ok (Scalar.half * phi * variance - mean)

/-- The dual objective at an array, stretched to the number of weights if it is shorter. -/
def Program.dualObjectiveAt {n : Nat} (p : Program α n) (alpha : Tensor α) (beta : Except Fault α) :
    Except Fault α :=
  match alpha.asVec? n with
  | some alpha => do
    let beta ← beta
    (p.dualObjective? alpha beta).elim (.error .notFinite) .ok
  | none => do
    let difference ← Tensor.zipWith (fun c a => c - a) (.ofVec p.linear) alpha
    let beta ← beta
    let point := difference.map fun x => x - beta
    let solution ← p.factor.solveAt point
    let product ← (← point.matmul solution).toNumber
    .ok (p.dualValue product beta)

end SparseWeights
