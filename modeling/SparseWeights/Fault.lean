/-!
What can go wrong below the rules of this library: a value of the wrong type, a number that cannot be
read, shapes that do not fit, a file that is not there. Such a fault carries no text of its own.
-/

namespace SparseWeights

inductive Packing where
  | gzip
  | bzip2
  | zip
  | xz
  | zstandard
  | tar
  deriving DecidableEq, Repr

inductive Fault where
  /-- A value of a type that the operation does not take. -/
  | wrongType
  /-- A text or a value that is not of the form asked for. -/
  | unreadable
  | tooLarge
  | shapeMismatch
  | notFinite
  /-- The largest of no numbers. -/
  | emptyMaximum
  /-- The first of no entries. -/
  | noEntry
  /-- Values that the arithmetic of arrays does not take. -/
  | noArithmetic
  | noMemory
  | divisionByZero
  | noAxis
  | noLabel
  /-- A value without the operation asked for. -/
  | noMember
  | noFile
  | noDirectory
  | isDirectory
  | notDirectory
  | fileExists
  /-- A path, or a part of one, of more bytes than a file system takes. -/
  | nameTooLong
  | unreachable
  /-- A kind of address, or of packed file, that nothing here can handle. -/
  | notSupported
  | notPacked (form : Packing)
  | endsEarly
  /-- Values that are nested deeper than a routine follows. -/
  | tooDeep
  /-- Half of a pair of code units without the other half. -/
  | halfPair
  | malformedToml
  | malformedJson
  /-- A data file without a header. -/
  | emptyTable
  /-- A data file with a line of too many fields, or with a quote left open. -/
  | raggedTable
  | serviceFailed
  /-- A command line that was refused, or answered, before any work; with the exit code. -/
  | exit (code : Nat)
  deriving DecidableEq, Repr

end SparseWeights
