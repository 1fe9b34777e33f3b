import SparseWeights.Linear.Vec

/-!
The projection of a sequence onto the sequences that do not increase and are not negative, by pooling
neighbours that violate the order. Entries are taken one by one; each starts a block of its own, and as
long as the block before it has no larger mean the two are merged. At the end every block becomes its
mean, or zero if the mean is negative.
-/

namespace SparseWeights

/-- Neighbouring entries that have been pooled: from `first` to `last`, with their sum and mean. -/
structure Block (α : Type) where
  first : Nat
  last : Nat
  total : α
  mean : α

namespace Block

variable {α : Type} [Scalar α]

def single (i : Nat) (x : α) : Block α := ⟨i, i, x, x⟩

/-- Two neighbouring blocks as one. -/
@[specialize] def merge (b c : Block α) : Block α :=
  let total := b.total + c.total
  ⟨b.first, c.last, total, total / Scalar.ofNat (c.last - b.first + 1)⟩

/-- Puts a block on a stack of blocks, merged with those on top whose mean is not larger. -/
@[specialize] def settle : List (Block α) → Block α → List (Block α)
  | [], b => [b]
  | top :: rest, b =>
    if top.mean ≤ b.mean then settle rest (top.merge b) else b :: top :: rest

/-- The blocks of a sequence, the last one on top. -/
@[specialize] def ofSequence {n : Nat} (s : Vec α n) : List (Block α) :=
  (List.finRange n).foldl (fun stack (i : Fin n) => settle stack (single i (s.get i))) []

/-- The value that the entries of a block take. -/
@[specialize] def level (b : Block α) : α := Scalar.larger b.mean 0

@[specialize] def fill {n : Nat} (z : Vec α n) (b : Block α) : Vec α n :=
  (List.range' b.first (b.last + 1 - b.first)).foldl (fun z i => z.setIfInBounds i b.level) z

end Block

/-- The projection of a sequence, written over an arbitrary one of the same length. -/
@[specialize] def projectOver {α : Type} [Scalar α] {n : Nat} (z s : Vec α n) : Vec α n :=
  (Block.ofSequence s).reverse.foldl Block.fill z

/-- The nearest sequence that does not increase and is not negative. -/
@[specialize] def project {α : Type} [Scalar α] {n : Nat} (s : Vec α n) : Vec α n :=
  projectOver (Vector.replicate n 0) s

end SparseWeights
