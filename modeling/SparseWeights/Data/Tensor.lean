import SparseWeights.Data.Number
import SparseWeights.Linear.Vec

/-!
Rectangular arrays of any number of axes, as they enter from data whose shape is known only when it is
read. The entries are listed with the last axis running fastest, and there are as many as the shape has
places. Elementwise operations stretch axes of length one; products pair the last axis of the first
array with the last axis but one of the second.
-/

namespace SparseWeights

def volume : List Nat → Nat
  | [] => 1
  | n :: shape => n * volume shape

theorem volume_filter (shape : List Nat) : volume (shape.filter (· != 1)) = volume shape := by
  induction shape with
  | nil => rfl
  | cons n shape ih =>
    by_cases hn : n = 1
    · simp [hn, volume, ih]
    · simp [hn, volume, ih]

/-- The arrays that a machine has room for. -/
structure Memory where
  /-- As many entries, or more, are not counted. -/
  countable : Nat
  /-- As many entries, or more, have no room. -/
  available : Nat
  /-- Eight petabytes are more than a machine has. -/
  available_le : available ≤ Decimal.pow2 50

def Memory.checkedCount (memory : Memory) (n : Nat) : Except Fault Nat :=
  if memory.countable ≤ n then .error .unreadable
  else if memory.available ≤ n then .error .noMemory
  else .ok n

structure Tensor (α : Type) where
  shape : List Nat
  entries : List α
  length_eq : entries.length = volume shape

namespace Tensor

variable {α β γ : Type}

def ofEntries? (shape : List Nat) (entries : List α) : Option (Tensor α) :=
  if h : entries.length = volume shape then some ⟨shape, entries, h⟩ else none

def scalar (x : α) : Tensor α := ⟨[], [x], rfl⟩

def ofList (xs : List α) : Tensor α := ⟨[xs.length], xs, by simp [volume]⟩

def ofVec {n : Nat} (v : Vec α n) : Tensor α := ofList v.toList

def size (t : Tensor α) : Nat := t.entries.length

def map (f : α → β) (t : Tensor α) : Tensor β :=
  ⟨t.shape, t.entries.map f, by simp [t.length_eq]⟩

def ofMat {m n : Nat} (A : Mat α m n) : Tensor α :=
  ⟨[m, n], A.toList.flatMap Vector.toList, by simp [volume, List.length_flatMap, List.map_const']⟩

def flat (t : Tensor α) : Vec α t.size := ⟨t.entries.toArray, by simp [size]⟩

def asVec? (t : Tensor α) (n : Nat) : Option (Vec α n) :=
  if h : t.shape = [n] then some (t.flat.cast (by simp [size, t.length_eq, h, volume])) else none

def column (t : Tensor α) : Tensor α :=
  ⟨[t.size, 1], t.entries, by simp [volume, size]⟩

/-- The array without its axes of length one. -/
def squeeze (t : Tensor α) : Tensor α :=
  ⟨t.shape.filter (· != 1), t.entries, by rw [volume_filter, t.length_eq]⟩

/-- The entry of an array without axes; any other array is no number. -/
def toNumber (t : Tensor α) : Except Fault α :=
  match t.shape, t.entries with
  | [], [x] => .ok x
  | _, _ => .error .wrongType

/-- A list cut into pieces of equal length; empty pieces cannot be counted, so their number is given. -/
def pieces (length : Nat) : Nat → List α → List (List α)
  | 0, _ => []
  | count + 1, xs => xs.take length :: pieces length count (xs.drop length)

def matrixOf [Zero α] (m n : Nat) (entries : List α) : Mat α m n :=
  let rows := (pieces n m entries).toArray.map List.toArray
  Vector.ofFn fun i => Vector.ofFn fun j => (rows.getD i #[]).getD j 0

def toMat? [Zero α] (t : Tensor α) : Option ((m : Nat) × (n : Nat) × Mat α m n) :=
  match t.shape with
  | [m, n] => some ⟨m, n, matrixOf m n t.entries⟩
  | _ => none

def commonAxis? (m n : Nat) : Option Nat :=
  if m = n then some m else if m = 1 then some n else if n = 1 then some m else none

/-- The common shape of two shapes whose axes are listed from the last to the first. -/
def commonReversed? : List Nat → List Nat → Option (List Nat)
  | [], t => some t
  | s, [] => some s
  | m :: s, n :: t => do
    let axis ← commonAxis? m n
    let rest ← commonReversed? s t
    some (axis :: rest)

def commonShape? (s t : List Nat) : Option (List Nat) :=
  (commonReversed? s.reverse t.reverse).map List.reverse

/-- Entries of a shape, repeated along the axes of length one up to a shape with as many axes. -/
def stretchAxes : List Nat → List Nat → List α → List α
  | m :: s, n :: t, xs =>
    let parts := (pieces (volume s) m xs).map (stretchAxes s t)
    if m = n then parts.flatten else (List.replicate n parts.flatten).flatten
  | _, _, xs => xs

/-- Entries of a shape, repeated up to a larger shape. -/
def stretch (source target : List Nat) (xs : List α) : List α :=
  stretchAxes (List.replicate (target.length - source.length) 1 ++ source) target xs

def zipWith? (f : α → β → γ) (s : Tensor α) (t : Tensor β) : Option (Tensor γ) := do
  let shape ← commonShape? s.shape t.shape
  ofEntries? shape (List.zipWith f (stretch s.shape shape s.entries) (stretch t.shape shape t.entries))

/-- Combines two arrays entry by entry, if their shapes can be stretched to a common one. -/
def zipWith (f : α → β → γ) (s : Tensor α) (t : Tensor β) : Except Fault (Tensor γ) :=
  (zipWith? f s t).elim (.error .shapeMismatch) .ok

/-- The transposed list of lists, of which each has the given length. -/
def columnsOf (length : Nat) (rows : List (List α)) : List (List α) :=
  match length with
  | 0 => []
  | length + 1 => rows.filterMap List.head? :: columnsOf length (rows.map List.tail)

def listDot [Scalar α] (xs ys : List α) : α :=
  (List.zipWith (fun x y => x * y) xs ys).foldl (fun s x => s + x) 0

def product [Scalar α] (m k n : Nat) (xs ys : List α) : List α :=
  let columns := columnsOf n (pieces n k ys)
  (pieces k m xs).flatMap fun row => columns.map (listDot row)

/-- The leading axes and the last two, a single axis being a row. -/
def rowAxes? (shape : List Nat) : Option (List Nat × Nat × Nat) :=
  match shape.reverse with
  | [] => none
  | [k] => some ([], 1, k)
  | k :: m :: rest => some (rest.reverse, m, k)

def columnAxes? (shape : List Nat) : Option (List Nat × Nat × Nat) :=
  match shape.reverse with
  | [] => none
  | [k] => some ([], k, 1)
  | n :: k :: rest => some (rest.reverse, k, n)

def matmul? [Scalar α] (s t : Tensor α) : Option (Tensor α) := do
  let (left, m, k) ← rowAxes? s.shape
  let (right, l, n) ← columnAxes? t.shape
  if k = l then
    let leading ← commonShape? left right
    let first := stretch left leading (pieces (m * k) (volume left) s.entries)
    let second := stretch right leading (pieces (k * n) (volume right) t.entries)
    let rowAxis := if s.shape.length = 1 then [] else [m]
    let columnAxis := if t.shape.length = 1 then [] else [n]
    ofEntries? (leading ++ rowAxis ++ columnAxis)
      (List.zipWith (product m k n) first second).flatten
  else none

/-- The product of two arrays: of vectors the sum of the products, of matrices their product, and of
stacks of matrices the products one by one. -/
def matmul [Scalar α] (s t : Tensor α) : Except Fault (Tensor α) :=
  (matmul? s t).elim (.error .shapeMismatch) .ok

def stack? : List (List Nat) → Option (List Nat)
  | [] => some [0]
  | shape :: rest => if rest.all (· = shape) then some ((rest.length + 1) :: shape) else none

mutual

/-- The shape of nested lists; `none` if they are not rectangular. -/
def shapeOf? : Value → Option (List Nat)
  | .list items => (shapesOf? items).bind stack?
  | _ => some []

def shapesOf? : List Value → Option (List (List Nat))
  | [] => some []
  | item :: rest => do
    let shape ← shapeOf? item
    let shapes ← shapesOf? rest
    some (shape :: shapes)

end

mutual

def leavesOf : Value → List Value
  | .list items => leavesOfAll items
  | value => [value]

def leavesOfAll : List Value → List Value
  | [] => []
  | item :: rest => leavesOf item ++ leavesOfAll rest

end

def stripNul (s : String) : String :=
  String.ofList ((s.toList.reverse.dropWhile (· == '\x00')).reverse)

/-- An entry of an array: a missing value is NaN, and NULs at the end of a text do not count. -/
def entryOf : Value → Except Fault Float
  | .null => .ok (0 / 0)
  | .text s => (Value.text (stripNul s)).toFloat
  | value => value.toFloat

def maxAxes : Nat := 64

/-- The array that nested lists of numbers spell. -/
def ofValue (value : Value) : Except Fault (Tensor Float) :=
  match (shapeOf? value).filter fun shape => shape.length ≤ maxAxes with
  | none => .error .shapeMismatch
  | some shape => do
    let entries ← (leavesOf value).mapM entryOf
    (ofEntries? shape entries).elim (.error .shapeMismatch) .ok

def isText : Value → Bool
  | .text _ => true
  | _ => false

/-- The array that a value is where it takes part in a product as it stands, without being read: texts
have no products, and neither have other values that are no numbers. -/
def ofFactor (value : Value) : Except Fault (Tensor Float) :=
  let leaves := leavesOf value
  match shapeOf? value with
  | none => .error .shapeMismatch
  | some shape =>
    if leaves.any isText && leaves.all fun leaf => isText leaf || leaf.isNumber then
      .error .noArithmetic
    else if shape = [] then .error .shapeMismatch
    else if leaves.all Value.isNumber then ofValue value
    else .error .wrongType

/-- A vector: an array with one axis, or with two of which one has length one. -/
def vector? (t : Tensor α) : Option ((n : Nat) × Vec α n) :=
  match t.shape with
  | [_] => some ⟨t.size, t.flat⟩
  | [m, n] => if m = 1 ∨ n = 1 then some ⟨t.size, t.flat⟩ else none
  | _ => none

end Tensor

end SparseWeights
