import SparseWeights.Data.Tensor
import SparseWeights.Synthetic.Generator

/-!
Noise that can be repeated, for programs that have no other generator. A key gives a word for every place,
by mixing the bits of the key and of the place, and numbers are made of words.
-/

namespace SparseWeights.Synthetic

/-- A key, and how many places have been used. -/
structure Noise where
  key : UInt64
  used : Nat

namespace Noise

/-- A word in which every bit of the given one has a part. -/
def mixed (x : UInt64) : UInt64 :=
  let x := (x ^^^ (x >>> 30)) * 0xBF58476D1CE4E5B9
  let x := (x ^^^ (x >>> 27)) * 0x94D049BB133111EB
  x ^^^ (x >>> 31)

def stride : UInt64 := 0x9E3779B97F4A7C15

def ofSeed (parts : List Nat) : Noise :=
  ⟨parts.foldl (fun key part => mixed (key + stride + UInt64.ofNat part)) 0, 0⟩

def word (noise : Noise) (i : Nat) : UInt64 :=
  mixed (noise.key + stride * UInt64.ofNat (noise.used + i + 1))

def skip (noise : Noise) (count : Nat) : Noise := { noise with used := noise.used + count }

def fraction (noise : Noise) (i : Nat) : Float :=
  (noise.word i >>> 11).toFloat / 9007199254740992

def fullTurn : Float := 6.283185307179586

/-- A normal number around zero: a radius and an angle, of which one coordinate is taken. -/
def normal (noise : Noise) (i : Nat) : Float :=
  let radius := (-2 * (1 - noise.fraction (2 * i)).log).sqrt
  radius * (fullTurn * noise.fraction (2 * i + 1)).cos

def generator (memory : Memory) : Generator where
  State := Noise
  seeded := ofSeed
  unseeded nth := ofSeed [nth]
  places {k count} h := fun noise => do
    let _ ← memory.checkedCount k
    let order := (List.finRange k).mergeSort fun i j => decide (noise.word i ≤ noise.word j)
    return (⟨(order.take count).toArray, by simp [order, h]⟩, noise.skip k)
  uniform low high n := fun noise => do
    let _ ← memory.checkedCount n
    return (Vector.ofFn fun i => low + (high - low) * noise.fraction i, noise.skip n)
  normal {n} deviations := fun noise => do
    let _ ← memory.checkedCount n
    return (Vector.ofFn fun i => deviations.get i * noise.normal i, noise.skip (2 * n))
  normalRows m n := fun noise => do
    let _ ← memory.checkedCount (m * n)
    return (Mat.ofFn fun i j => noise.normal (i * n + j), noise.skip (2 * (m * n)))

end Noise

end SparseWeights.Synthetic
