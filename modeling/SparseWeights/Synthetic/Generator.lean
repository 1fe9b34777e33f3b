import SparseWeights.Fault
import SparseWeights.Linear.Vec

/-!
Sources of random numbers. Where the numbers come from is left open: a generator is made of a seed, or of
nothing, and moves on with every draw. A draw may fail for want of room.
-/

namespace SparseWeights.Synthetic

/-- Whether a deviation has a minus sign; zero may have one, too. -/
def isNegative (x : Float) : Bool := !x.isNaN && x.toBits >>> 63 == 1

structure Generator where
  State : Type
  /-- The generator of a seed, which may have several parts. -/
  seeded : List Nat → State
  /-- The generators that are made without a seed, one after another. -/
  unseeded : Nat → State
  /-- Different places among `k`. -/
  places {k count : Nat} (h : count ≤ k) : StateT State (Except Fault) (Vec (Fin k) count)
  uniform (low high : Float) (n : Nat) : StateT State (Except Fault) (Vec Float n)
  /-- Normal numbers around zero, each with its own deviation. -/
  normal {n : Nat} (deviations : Vec Float n) : StateT State (Except Fault) (Vec Float n)
  /-- Normal numbers around zero, with the deviation one. -/
  normalRows (m n : Nat) : StateT State (Except Fault) (Mat Float m n)

namespace Generator

abbrev Draw (g : Generator) : Type → Type := StateT g.State (Except Fault)

/-- A generator that replays numbers between zero and one and normal numbers of the deviation one, and
draws zeros after their end. Places come in order. -/
def replaying (recorded : List Float) : Generator where
  State := List Float
  seeded _ := recorded
  unseeded _ := recorded
  places h := pure (Vector.ofFn fun i => i.castLE h)
  uniform low high n := fun rest =>
    .ok (Vector.ofFn fun i => low + (high - low) * rest.getD i 0, rest.drop n)
  normal {n} deviations := fun rest =>
    .ok (Vector.ofFn fun i => deviations.get i * rest.getD i 0, rest.drop n)
  normalRows m n := fun rest =>
    .ok (Mat.ofFn fun i j => rest.getD (i * n + j) 0, rest.drop (m * n))

end Generator

end SparseWeights.Synthetic
