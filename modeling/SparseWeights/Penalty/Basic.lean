import SparseWeights.Penalty.Pooling

/-!
The penalties: the sum of the magnitudes with one factor, and the sum of the sorted magnitudes, each with
a factor of its own. Of each the module gives the value, the proximal map, and by how much a dual vector
lies outside the unit ball of the dual norm.
-/

namespace SparseWeights

variable {α : Type} [Scalar α] {n : Nat}

inductive Penalty (α : Type) (n : Nat) where
  /-- All magnitudes count alike. -/
  | l1 (lam : α)
  /-- The largest magnitude counts with the first factor, the next one with the second. -/
  | sortedL1 (lam : Vec α n)

/-- Moves a number towards zero by the threshold, and no further than zero. -/
@[specialize] def softThreshold (y threshold : α) : α :=
  Scalar.sign y * Scalar.maxNaN (Scalar.abs y - threshold) 0

namespace Vec

/-- Whether the entry at `i` stands before the one at `j` by magnitude: larger ones do, NaN comes last. -/
@[specialize] def precedes (y : Vec α n) (i j : Fin n) : Bool :=
  let a := Scalar.abs (y.get i)
  let b := Scalar.abs (y.get j)
  Scalar.isNaN b || decide (b ≤ a)

/-- The places of a vector by falling magnitude; places of equal magnitude keep their order. -/
@[specialize] def order (y : Vec α n) : List (Fin n) :=
  (List.finRange n).mergeSort (precedes y)

/-- The magnitudes in falling order, NaN first. -/
@[specialize] def descending (v : Vec α n) : List α :=
  (magnitudes v).toList.mergeSort fun a b => Scalar.isNaN a || decide (b ≤ a)

end Vec

@[specialize] def reduced (order : List (Fin n)) (y thresholds : Vec α n) : Vec α n :=
  let places := order.toArray
  Vector.ofFn fun k => (places[k.val]?.elim 0 fun i => Scalar.abs (y.get i)) - thresholds.get k

/-- Puts the entries of `z`, with the signs of `y`, back to the places they came from. -/
@[specialize] def scatter (order : List (Fin n)) (y z out : Vec α n) : Vec α n :=
  (order.zip z.toList).foldl (fun out (i, x) => out.set i.val (Scalar.sign (y.get i) * x) i.isLt) out

@[specialize] def proxAlong (order : List (Fin n)) (y thresholds : Vec α n) : Vec α n :=
  scatter order y (project (reduced order y thresholds)) (Vector.replicate n 0)

/-- The proximal map of the sorted penalty: the sorted magnitudes less the thresholds are projected onto
the falling sequences, and go back to their places with their signs. -/
@[specialize] def proxSorted (y thresholds : Vec α n) : Vec α n :=
  proxAlong (Vec.order y) y thresholds

/-- The sums of the first entries, one, two and so on, added to `sum`. -/
@[specialize] def prefixSums (sum : α) : List α → List α
  | [] => []
  | x :: rest => (sum + x) :: prefixSums (sum + x) rest

namespace Penalty

@[specialize] def value (p : Penalty α n) (w : Vec α n) : α :=
  match p with
  | l1 lam => lam * Vec.norm1 w
  | sortedL1 lam =>
    (List.zipWith (fun l x => l * x) lam.toList (Vec.descending w)).foldl (fun s x => s + x) 0

/-- The minimiser over `v` of `‖y - v‖² / 2` plus `t` times the penalty of `v`. -/
@[specialize] def prox (p : Penalty α n) (y : Vec α n) (t : α) : Vec α n :=
  match p with
  | l1 lam => y.map fun x => softThreshold x (t * lam)
  | sortedL1 lam => proxSorted y (Vec.scale t lam)

/-- By how much a dual vector lies outside the dual ball, zero inside. -/
@[specialize] def dualInfeasibility (p : Penalty α n) (alpha : Vec α n) : α :=
  match p with
  | l1 lam => Scalar.larger (Vec.maxAbs alpha - lam) 0
  | sortedL1 lam =>
    (prefixSums 0 (List.zipWith (fun a l => a - l) (Vec.descending alpha) lam.toList)).foldl
      Scalar.maxNaN 0

end Penalty

end SparseWeights
