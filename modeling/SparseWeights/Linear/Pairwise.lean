import SparseWeights.Linear.Vec

/-!
Sums whose rounding errors stay small however many numbers there are. Up to seven numbers are added one by
one; up to a block of them in eight lanes, each with every eighth number; more in two halves. Means are
taken of such sums, so a constant may differ from the mean of its repetitions by a last digit.
-/

namespace SparseWeights.Vec

variable {α : Type} [Scalar α]

def laneCount : Nat := 8

/-- The largest number of terms that are not halved. -/
def blockLength : Nat := 128

def sumFrom (start : α) (xs : List α) : α := xs.foldl (fun s x => s + x) start

/-- Adds numbers to lanes as long as there is one for each lane; the rest is left over. -/
def fillLanes : Nat → List α → List α → List α × List α
  | 0, lanes, xs => (lanes, xs)
  | fuel + 1, lanes, xs =>
    if xs.length < laneCount then (lanes, xs)
    else fillLanes fuel (List.zipWith (fun s x => s + x) lanes xs) (xs.drop laneCount)

/-- The sum of numbers by neighbours, then of those sums, and so on. -/
def joinLanes : List α → α
  | [a, b, c, d, e, f, g, h] => ((a + b) + (c + d)) + ((e + f) + (g + h))
  | lanes => sumFrom 0 lanes

def blockSum (xs : List α) : α :=
  if xs.length < laneCount then sumFrom 0 xs
  else
    let (lanes, rest) := fillLanes xs.length (xs.take laneCount) (xs.drop laneCount)
    sumFrom (joinLanes lanes) rest

def halvedSum : Nat → List α → α
  | 0, xs => blockSum xs
  | fuel + 1, xs =>
    if xs.length ≤ blockLength then blockSum xs
    else
      let half := xs.length / 2
      let cut := half - half % laneCount
      halvedSum fuel (xs.take cut) + halvedSum fuel (xs.drop cut)

def mean {n : Nat} (v : Vec α n) : α := halvedSum n v.toList / Scalar.ofNat n

end SparseWeights.Vec
