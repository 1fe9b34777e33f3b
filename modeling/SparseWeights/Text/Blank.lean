import SparseWeights.Text.Range

/-!
Blank characters, as Unicode has them: those of category Zs and those whose bidirectional class is a
white space or a separator of lines, paragraphs or segments.
-/

namespace SparseWeights.Text

def blankRanges : List (Nat × Nat) := [
  (0x9, 0xd), (0x1c, 0x20), (0x85, 0x85), (0xa0, 0xa0), (0x1680, 0x1680), (0x2000, 0x200a),
  (0x2028, 0x2029), (0x202f, 0x202f), (0x205f, 0x205f), (0x3000, 0x3000)]

def isBlank (c : Char) : Bool := inRanges blankRanges c

/-- The characters without those at either end that are to be skipped. -/
def trim (skip : Char → Bool) (cs : List Char) : List Char :=
  ((cs.dropWhile skip).reverse.dropWhile skip).reverse

def strip (cs : List Char) : List Char := trim isBlank cs

end SparseWeights.Text
