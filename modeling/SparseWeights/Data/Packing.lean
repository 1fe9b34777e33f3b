import SparseWeights.Fault

/-!
Packed files. The end of a name tells in which form a file is packed, and such a file is unpacked before
it is read. A text is packed in none of the forms, so there is nothing to unpack but an empty file in one
of them.
-/

namespace SparseWeights.Packing

/-- The ends of names, the first that fits telling the form. -/
def suffixes : List (String × Packing) := [
  (".tar", tar), (".tar.gz", tar), (".tar.bz2", tar), (".tar.xz", tar),
  (".gz", gzip), (".bz2", bzip2), (".zip", zip), (".xz", xz), (".zst", zstandard)]

def ofName? (name : String) : Option Packing :=
  (suffixes.find? fun suffix => name.toLower.endsWith suffix.1).map (·.2)

def unpack (form : Packing) (text : String) : Except Fault String :=
  match form, text.isEmpty with
  | .gzip, true => .ok ""
  | .bzip2, true | .xz, true => .error .endsEarly
  | form, _ => .error (.notPacked form)

/-- The text of a file of the given name, which is looked up only if the form can be handled. -/
def read (name : String) (text : Except Fault String) : Except Fault String :=
  match ofName? name with
  | none => text
  | some .zstandard => .error .notSupported
  | some form => text.bind (unpack form)

end SparseWeights.Packing
