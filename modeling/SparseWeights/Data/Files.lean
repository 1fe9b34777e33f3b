import SparseWeights.Data.Value
import SparseWeights.Fault

/-!
Paths, and text files by the places that paths lead to. A path is kept without empty parts and without
parts that stand for the directory itself; steps up are kept, and are followed from one directory to the
next when a file is looked up. A path that holds a NUL names nothing, and a path or a part of one that is
too long cannot be looked up.
-/

namespace SparseWeights

structure Path where
  /-- The slashes in front of an absolute path. -/
  root : String
  parts : List String
  deriving DecidableEq, Repr

namespace Path

/-- Two slashes in front are kept; any other number is one. -/
def rootOf (s : String) : String :=
  let slashes := s.toList.takeWhile (· == '/')
  if slashes.length = 2 then "//" else if slashes.isEmpty then "" else "/"

/-- The characters between the slashes. -/
def splitSlashes : List Char → List (List Char)
  | [] => [[]]
  | c :: rest =>
    match splitSlashes rest with
    | [] => [[c]]
    | part :: parts => if c = '/' then [] :: part :: parts else (c :: part) :: parts

def ofText (s : String) : Path :=
  ⟨rootOf s,
    ((splitSlashes s.toList).map String.ofList).filter fun part => part != "" && part != "."⟩

/-- The path that a name is on its own, where a slash at the end asks for a directory. -/
def ofName (s : String) : Path :=
  let path := ofText s
  if s.endsWith "/" ∧ path.parts ≠ [] then { path with parts := path.parts ++ ["."] } else path

def ofValue? : Value → Option Path
  | .text s => some (ofText s)
  | _ => none

def text (p : Path) : String :=
  if p.root = "" ∧ p.parts = [] then "." else p.root ++ "/".intercalate p.parts

def name (p : Path) : String := p.parts.getLastD ""

def parent (p : Path) : Path := { p with parts := p.parts.dropLast }

/-- The end of the name from its last point on; empty if the point is the first or last character. -/
def suffix (p : Path) : String :=
  let name := p.name.toList
  let tail := name.reverse.takeWhile (· != '.')
  if tail = [] ∨ name.length ≤ tail.length + 1 then "" else String.ofList ('.' :: tail.reverse)

end Path

/-- Where a path leads to: the parts from the working directory on, of which the first ones may be steps
up, or from the root on, which is the part `/`. -/
abbrev Place := List String

def Place.root : Place := ["/"]

/-- What is written here is gone. -/
def Place.nullDevice : Place := ["/", "dev", "null"]

def Path.origin (p : Path) : Place := if p.root = "" then [] else Place.root

def Place.isAbove (place : Place) : Bool := place.all (· == "..")

/-- Goes one part further. Nothing lies above the root. -/
def Place.follow (place : Place) (part : String) : Place :=
  if part = "." then place
  else if part ≠ ".." then place ++ [part]
  else if place = Place.root then place
  else if place.isAbove then ".." :: place
  else place.dropLast

def Place.systemFolders : List Place :=
  ["bin", "boot", "dev", "etc", "home", "lib", "media", "mnt", "opt", "proc", "root", "run", "sbin",
    "srv", "sys", "tmp", "usr", "var"].map fun name => ["/", name]

/-- Text files by their places, and the directories that were made for them. The root, the working
directory and those above it are always there. -/
structure Files where
  entries : List (Place × String) := [(Place.nullDevice, "")]
  folders : List Place := Place.systemFolders

namespace Files

def textAt? (files : Files) (place : Place) : Option String :=
  (files.entries.find? fun entry => entry.1 == place).map (·.2)

def hasFolder (files : Files) (place : Place) : Bool :=
  place == Place.root || place.isAbove || files.folders.contains place

def holds (files : Files) (place : Place) : Bool :=
  (files.textAt? place).isSome || files.hasFolder place

def maxPartBytes : Nat := 255

def maxPathBytes : Nat := 4095

def checkPath (p : Path) : Except Fault Path :=
  if p.text.toList.contains '\x00' then .error .unreadable
  else if maxPathBytes < p.text.utf8ByteSize then .error .nameTooLong
  else .ok p

def enter (place : Place) (part : String) : Except Fault Place :=
  if maxPartBytes < part.utf8ByteSize then .error .nameTooLong else .ok (place.follow part)

/-- The place that a path leads to. Every part but the last has to lead to a directory. -/
def locate (files : Files) (p : Path) : Except Fault Place := do
  (← checkPath p).parts.foldlM (fun place part =>
    if files.hasFolder place then enter place part
    else .error (if (files.textAt? place).isSome then .notDirectory else .noFile)) p.origin

/-- Whether there is a file or a directory at the end of a path. Of paths that lead nowhere only those
that are too long are a fault. -/
def has (files : Files) (p : Path) : Except Fault Bool :=
  match files.locate p with
  | .ok place => .ok (files.holds place)
  | .error .nameTooLong => .error .nameTooLong
  | .error _ => .ok false

def isFolder (files : Files) (p : Path) : Bool :=
  match files.locate p with
  | .ok place => files.hasFolder place
  | .error _ => false

def read (files : Files) (p : Path) : Except Fault String := do
  let place ← files.locate p
  match files.textAt? place with
  | some text => return text
  | none => .error (if files.hasFolder place then .isDirectory else .noFile)

def store (files : Files) (place : Place) (text : String) : Files :=
  if place = Place.nullDevice then files
  else { files with
    entries := (place, text) :: files.entries.filter fun entry => entry.1 != place }

/-- Gives a file its text; the directory has to be there. -/
def write (files : Files) (p : Path) (text : String) : Except Fault Files := do
  let place ← files.locate p
  if files.hasFolder place then .error .isDirectory else return files.store place text

/-- Makes directories one in another, as far as they are not there. Those that were made stay when it
fails at a later part. -/
def makeFoldersFrom (files : Files) (place : Place) : List String → Files × Option Fault
  | [] => (files, if (files.textAt? place).isSome then some .fileExists else none)
  | part :: rest =>
    if (files.textAt? place).isSome then (files, some .notDirectory)
    else match enter place part with
      | .error cause => (files, some cause)
      | .ok next =>
        let files := if files.holds next then files else { files with folders := next :: files.folders }
        makeFoldersFrom files next rest

/-- Makes a directory, and those on the way to it. -/
def makeFolders (files : Files) (p : Path) : Files × Option Fault :=
  match checkPath p with
  | .error cause => (files, some cause)
  | .ok p => makeFoldersFrom files p.origin p.parts

def makeFolder (files : Files) (p : Path) : Except Fault Files :=
  match files.makeFolders p with
  | (made, none) => .ok made
  | (_, some cause) => .error cause

def put (files : Files) (p : Path) (text : String) : Except Fault Files := do
  (← files.makeFolder p.parent).write p text

def ofList (files : List (String × String)) : Files :=
  files.foldl (fun all file =>
    ((all.put (Path.ofText file.1) file.2).toOption).getD all) {}

end Files

end SparseWeights
