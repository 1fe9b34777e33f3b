import SparseWeights.Linear.Vec

/-!
The Cholesky factorisation of a symmetric matrix, bordered row by row: the factor of the leading block
is extended by one row and one pivot. Only the lower triangle of the matrix is read, and the
factorisation fails exactly at a pivot that is not positive, which for a symmetric matrix of real numbers
means that the matrix is not positive definite.
-/

namespace SparseWeights

/-- A lower triangular matrix with positive diagonal, as a tower of bordered blocks. -/
inductive Factor (α : Type) : Nat → Type where
  | empty : Factor α 0
  | border {n : Nat} (leading : Factor α n) (row : Vec α n) (pivot : α) : Factor α (n + 1)

namespace Factor

variable {α : Type} [Scalar α]

/-- Solves `L y = b`, from the first row to the last. -/
@[specialize] def forward : {n : Nat} → Factor α n → Vec α n → Vec α n
  | 0, .empty, _ => #v[]
  | _ + 1, .border leading row pivot, b =>
    let y := forward leading b.pop
    y.push ((b.back - Vec.dot row y) / pivot)

/-- Solves `Lᵀ x = y`, from the last row to the first. -/
@[specialize] def backward : {n : Nat} → Factor α n → Vec α n → Vec α n
  | 0, .empty, _ => #v[]
  | _ + 1, .border leading row pivot, y =>
    let last := y.back / pivot
    (backward leading (Vec.sub y.pop (Vec.scale last row))).push last

@[specialize] def solve {n : Nat} (L : Factor α n) (b : Vec α n) : Vec α n :=
  L.backward (L.forward b)

/-- The factor of a matrix, `none` at the first pivot that is not positive. -/
@[specialize] def cholesky? : {n : Nat} → Mat α n n → Option (Factor α n)
  | 0, _ => some .empty
  | _ + 1, A => do
    let leading ← cholesky? (A.pop.map fun row => row.pop)
    let row := leading.forward A.back.pop
    let square := A.back.back - Vec.dot row row
    if 0 < square then some (.border leading row (Scalar.sqrt square)) else none

/-- The factor of a matrix all of whose entries are finite. -/
@[specialize] def ofMatrix? {n : Nat} (A : Mat α n n) : Option (Factor α n) :=
  if Mat.allFinite A then cholesky? A else none

@[specialize] def solve? {n : Nat} (L : Factor α n) (b : Vec α n) : Option (Vec α n) :=
  if Vec.allFinite b then some (L.solve b) else none

end Factor

end SparseWeights
