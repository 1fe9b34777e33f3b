import SparseWeights.Linear.Vec

/-!
The spectral norm of a matrix, its largest singular value, as far as a fixed number of sweeps comes to
it. Columns are rotated in pairs until they are orthogonal (one-sided Jacobi rotations); a rotation does
not change the singular values, and those of a matrix with orthogonal columns are the lengths of the
columns. The sweeps are far more than double precision needs. Entries are divided by the largest
magnitude first, so that no square overflows.
-/

namespace SparseWeights.Spectral

variable {α : Type} [Scalar α] {m n : Nat}

/-- The cosine and sine of the rotation that makes two columns orthogonal, from their squared lengths
`a`, `b` and their product `g`. -/
@[specialize] def rotation (a b g : α) : α × α :=
  let slope := (b - a) / ((1 + 1) * g)
  let root := Scalar.abs slope + Scalar.sqrt (1 + slope * slope)
  let tangent := if slope < 0 then -(1 / root) else 1 / root
  let cosine := 1 / Scalar.sqrt (1 + tangent * tangent)
  (cosine, cosine * tangent)

@[specialize] def rotate (columns : Mat α n m) (p q : Fin n) : Mat α n m :=
  let x := columns.get p
  let y := columns.get q
  let g := Vec.dot x y
  if Scalar.same g 0 then columns
  else
    let (c, s) := rotation (Vec.dot x x) (Vec.dot y y) g
    let columns := columns.set p.val (Vec.sub (Vec.scale c x) (Vec.scale s y)) p.isLt
    columns.set q.val (Vec.add (Vec.scale s x) (Vec.scale c y)) q.isLt

def pairs (n : Nat) : List (Fin n × Fin n) :=
  (List.finRange n).flatMap fun p => ((List.finRange n).filter fun q => p < q).map fun q => (p, q)

@[specialize] def sweep (columns : Mat α n m) : Mat α n m :=
  (pairs n).foldl (fun columns pq => rotate columns pq.1 pq.2) columns

def sweeps : Nat := 30

/-- The length of the longest column behind the last sweep, for the largest singular value; zero if the
matrix has no entries. -/
@[specialize] def norm (A : Mat α m n) : α :=
  let top := Mat.maxAbs A
  if 0 < top then
    let scaled := (Mat.transpose A).map fun column => column.map fun x => x / top
    let columns := sweeps.repeat sweep scaled
    top * Scalar.sqrt (columns.foldl (fun best c => Scalar.maxNaN best (Vec.dot c c)) 0)
  else top

end SparseWeights.Spectral
