import SparseWeights.Scalar

/-!
Vectors and matrices of a fixed size. The size is part of the type, so sums and products need no check
on lengths; data of unknown shape is held by `Tensor` and enters here through it. All sums run from the
first entry to the last, starting at zero.
-/

namespace SparseWeights

abbrev Vec (α : Type) (n : Nat) := Vector α n

/-- A matrix as the vector of its rows. -/
abbrev Mat (α : Type) (m n : Nat) := Vec (Vec α n) m

variable {α : Type} [Scalar α] {m n : Nat}

namespace Vec

@[specialize] def total (v : Vec α n) : α := v.foldl (fun s x => s + x) 0

@[specialize] def dot (u v : Vec α n) : α := total (Vector.zipWith (fun x y => x * y) u v)

@[specialize] def add (u v : Vec α n) : Vec α n := Vector.zipWith (fun x y => x + y) u v

@[specialize] def sub (u v : Vec α n) : Vec α n := Vector.zipWith (fun x y => x - y) u v

@[specialize] def scale (a : α) (v : Vec α n) : Vec α n := v.map fun x => a * x

@[specialize] def magnitudes (v : Vec α n) : Vec α n := v.map Scalar.abs

/-- The largest magnitude, zero for the empty vector. -/
@[specialize] def maxAbs (v : Vec α n) : α := v.foldl (fun m x => Scalar.maxNaN m (Scalar.abs x)) 0

@[specialize] def norm1 (v : Vec α n) : α := total (magnitudes v)

@[specialize] def allFinite (v : Vec α n) : Bool := v.all Scalar.isFinite

end Vec

namespace Mat

def ofFn (f : Fin m → Fin n → α) : Mat α m n := Vector.ofFn fun i => Vector.ofFn (f i)

def transpose (A : Mat α m n) : Mat α n m := Vector.ofFn fun j => A.map fun row => row.get j

@[specialize] def scale (a : α) (A : Mat α m n) : Mat α m n := A.map (Vec.scale a)

@[specialize] def mulVec (A : Mat α m n) (x : Vec α n) : Vec α m := A.map fun row => Vec.dot row x

/-- The products of the columns of a matrix with each other. -/
@[specialize] def gram (A : Mat α m n) : Mat α n n :=
  let columns := transpose A
  columns.map fun c => columns.map fun d => Vec.dot c d

/-- The largest magnitude of an entry. -/
@[specialize] def maxAbs (A : Mat α m n) : α :=
  A.foldl (fun m row => Scalar.maxNaN m (Vec.maxAbs row)) 0

@[specialize] def allFinite (A : Mat α m n) : Bool := A.all Vec.allFinite

/-- The largest difference between a matrix and its transpose, zero for a symmetric one. -/
@[specialize] def asymmetry (A : Mat α n n) : α :=
  maxAbs (Vector.zipWith Vec.sub A (transpose A))

end Mat

end SparseWeights
