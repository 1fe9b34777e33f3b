import SparseWeights.Data.Toml.Lexeme

/-!
TOML documents read into records. A document is a list of statements: a key and its value, the header of
a table, or the header of a table that is one more item of a list. While it is read, paths are marked:
`frozen` for the value of a key that is itself a list or a table, which nothing later may extend, and
`declared` for a table that has been opened, which may not be opened again. A document is read from its
start up to its first fault.
-/

namespace SparseWeights.Toml

abbrev Path := List String

def isBareKeyChar (c : Char) : Bool :=
  ('a' ≤ c && c ≤ 'z') || ('A' ≤ c && c ≤ 'Z') || ('0' ≤ c && c ≤ '9') || c == '-' || c == '_'

def keyPart? (cs : List Char) : Option (String × List Char) :=
  let bare := cs.takeWhile isBareKeyChar
  if bare.isEmpty then (lineString? cs).map fun (text, tail) => (String.ofList text, tail)
  else some (String.ofList bare, cs.dropWhile isBareKeyChar)

def moreKeyParts? : Nat → List Char → Option (Path × List Char)
  | 0, _ => none
  | fuel + 1, cs =>
    match skipSpace cs with
    | '.' :: rest => do
      let (part, rest) ← keyPart? (skipSpace rest)
      let (parts, tail) ← moreKeyParts? fuel rest
      some (part :: parts, tail)
    | rest => some ([], rest)

/-- A key: one part or more, with points between them. Blanks behind it are skipped. -/
def key? (cs : List Char) : Option (Path × List Char) := do
  let (part, rest) ← keyPart? cs
  let (parts, tail) ← moreKeyParts? (rest.length + 1) rest
  some (part :: parts, tail)

inductive MarkKind where
  | frozen
  | declared
  deriving DecidableEq, Repr

/-- A marked path; a deep mark holds for all paths below it too. -/
structure Mark where
  path : Path
  kind : MarkKind
  deep : Bool

def isMarked (marks : List Mark) (kind : MarkKind) (path : Path) : Bool :=
  !path.isEmpty && marks.any fun mark =>
    mark.kind = kind && (mark.path = path || (mark.deep && mark.path.isPrefixOf path))

/-- Removes the marks of a path and of all paths below it. -/
def unmark (marks : List Mark) (path : Path) : List Mark :=
  marks.filter fun mark => !path.isPrefixOf mark.path

/-- Changes the table at a path, creating the tables on the way. A list on the way stands for its last
item, if lists may be entered. `none` if something on the way is no table, or if the change fails. -/
def changeAt? (enterLists : Bool) (change : Fields → Option Fields) : Path → Fields → Option Fields
  | [], table => change table
  | name :: path, table =>
    match table.get? name with
    | none => (changeAt? enterLists change path []).map fun t => table.put name (.record t)
    | some (.record inner) =>
      (changeAt? enterLists change path inner).map fun t => table.put name (.record t)
    | some (.list items) =>
      match enterLists, items.getLast? with
      | true, some (.record inner) =>
        (changeAt? enterLists change path inner).map fun t =>
          table.put name (.list (items.dropLast ++ [.record t]))
      | _, _ => none
    | some _ => none

/-- Gives a key its value, which it may not have yet. -/
def define? (name : String) (value : Value) (table : Fields) : Option Fields :=
  if table.has name then none else some (table.put name value)

/-- Opens one more item of the list under a name. -/
def appendTable? (name : String) (table : Fields) : Option Fields :=
  match table.get? name with
  | none => some (table.put name (.list [.record []]))
  | some (.list items) => some (table.put name (.list (items ++ [.record []])))
  | some _ => none

def isCompound : Value → Bool
  | .list _ | .record _ => true
  | _ => false

/-- Skips blanks, new lines and comments, as between the items of a list. -/
def skipBetween? : Nat → List Char → Option (List Char)
  | 0, _ => none
  | fuel + 1, cs =>
    match cs.dropWhile isSpaceOrNewline with
    | '#' :: rest => (skipComment? ('#' :: rest)).bind (skipBetween? fuel)
    | rest => some rest

def required {β : Type} (found : Option β) : Except Fault β := found.elim (.error .malformedToml) .ok

/-- What a list costs of the depth that is left. -/
def listCost : Nat := 2

def tableCost : Nat := 3

def deeper (depth cost : Nat) : Except Fault Nat :=
  if depth < cost then .error .tooDeep else .ok (depth - cost)

mutual

/-- A value at the start of a text, and what follows it. The first argument bounds the number of steps,
and the second one is the depth that is left. -/
def valueAt : Nat → Nat → List Char → Read
  | 0, _, _ => .error .malformedToml
  | fuel + 1, depth, cs =>
    match cs with
    | '\x22' :: _ | '\x27' :: _ => do
      let (text, tail) ← required (string? cs)
      return (.text (String.ofList text), tail)
    | '[' :: rest => do
      let depth ← deeper depth listCost
      match ← required (skipBetween? (rest.length + 1) rest) with
      | ']' :: tail => return (.list [], tail)
      | rest =>
        let (items, tail) ← itemsAt fuel depth rest
        return (.list items, tail)
    | '\x7b' :: rest => do
      let depth ← deeper depth tableCost
      match skipSpace rest with
      | '\x7d' :: tail => return (.record [], tail)
      | rest =>
        let (table, tail) ← pairsAt fuel depth [] [] rest
        return (.record table, tail)
    | cs => scalar cs

/-- One or more items up to the closing bracket; a comma may stand behind the last one. -/
def itemsAt : Nat → Nat → List Char → Except Fault (List Value × List Char)
  | 0, _, _ => .error .malformedToml
  | fuel + 1, depth, cs => do
    let (item, rest) ← valueAt fuel depth cs
    match ← required (skipBetween? (rest.length + 1) rest) with
    | ']' :: tail => return ([item], tail)
    | ',' :: rest =>
      match ← required (skipBetween? (rest.length + 1) rest) with
      | ']' :: tail => return ([item], tail)
      | rest =>
        let (items, tail) ← itemsAt fuel depth rest
        return (item :: items, tail)
    | _ => .error .malformedToml

/-- One or more keys with values up to the closing brace, added to a table of which the marked paths are
frozen. -/
def pairsAt : Nat → Nat → List Mark → Fields → List Char → Except Fault (Fields × List Char)
  | 0, _, _, _, _ => .error .malformedToml
  | fuel + 1, depth, marks, table, cs => do
    let (key, rest) ← required (key? cs)
    let rest ← required (skip? '=' rest)
    let (value, rest) ← valueAt fuel depth (skipSpace rest)
    if isMarked marks .frozen key then .error .malformedToml
    else
      let table ← required (changeAt? false (define? (key.getLastD "") value) key.dropLast table)
      match skipSpace rest with
      | '\x7d' :: tail => return (table, tail)
      | ',' :: rest =>
        let marks := if isCompound value then ⟨key, .frozen, true⟩ :: marks else marks
        pairsAt fuel depth marks table (skipSpace rest)
      | _ => .error .malformedToml

end

/-- A document while it is read: what has been defined, the marks, the marks that wait for the next
header, and the table that is open. -/
structure Draft where
  table : Fields := []
  marks : List Mark := []
  waiting : List Path := []
  header : Path := []

/-- The paths to the tables that the parts of a dotted key open. -/
def innerPaths (header key : Path) : List Path :=
  (List.range (key.length - 1)).map fun i => header ++ key.take (i + 1)

def Draft.pair (draft : Draft) (depth : Nat) (cs : List Char) : Except Fault (Draft × List Char) := do
  let (key, rest) ← required (key? cs)
  let rest := skipSpace (← required (skip? '=' rest))
  let (value, rest) ← valueAt (2 * rest.length + 2) depth rest
  let inner := innerPaths draft.header key
  let place := draft.header ++ key.dropLast
  if inner.any (isMarked draft.marks .declared) then .error .malformedToml
  else if isMarked draft.marks .frozen place then .error .malformedToml
  else
    let table ← required (changeAt? true (define? (key.getLastD "") value) place draft.table)
    let marks :=
      if isCompound value then ⟨draft.header ++ key, .frozen, true⟩ :: draft.marks else draft.marks
    return ({ draft with table, marks, waiting := inner ++ draft.waiting }, rest)

/-- Marks the tables that dotted keys have opened since the last header. -/
def Draft.settle (draft : Draft) : Draft :=
  { draft with
    marks := draft.waiting.map (fun path => ⟨path, .declared, false⟩) ++ draft.marks
    waiting := [] }

def Draft.table? (draft : Draft) (cs : List Char) : Option (Draft × List Char) := do
  let (key, rest) ← key? (skipSpace cs)
  if isMarked draft.marks .declared key || isMarked draft.marks .frozen key then none
  else
    let table ← changeAt? true some key draft.table
    let rest ← skip? ']' rest
    some ({ draft with table, marks := ⟨key, .declared, false⟩ :: draft.marks, header := key }, rest)

def Draft.listTable? (draft : Draft) (cs : List Char) : Option (Draft × List Char) := do
  let (key, rest) ← key? (skipSpace cs)
  if isMarked draft.marks .frozen key then none
  else
    let table ← changeAt? true (appendTable? (key.getLastD "")) key.dropLast draft.table
    let rest ← skip? ']' (← skip? ']' rest)
    some ({ draft with
      table, marks := ⟨key, .declared, false⟩ :: unmark draft.marks key, header := key }, rest)

/-- A statement, which does not start with a blank or a new line. -/
def Draft.statement (draft : Draft) (depth : Nat) : List Char → Except Fault (Draft × List Char)
  | '[' :: '[' :: rest => required (draft.settle.listTable? rest)
  | '[' :: rest => required (draft.settle.table? rest)
  | '#' :: rest => .ok (draft, '#' :: rest)
  | cs => draft.pair depth cs

def Draft.statements (depth : Nat) : Nat → Draft → List Char → Except Fault Draft
  | 0, _, _ => .error .malformedToml
  | fuel + 1, draft, cs =>
    match skipSpace cs with
    | [] => .ok draft
    | '\n' :: rest => statements depth fuel draft rest
    | cs => do
      let (draft, rest) ← draft.statement depth cs
      match ← required (skipComment? (skipSpace rest)) with
      | [] => return draft
      | '\n' :: rest => statements depth fuel draft rest
      | _ => .error .malformedToml

/-- A carriage return in front of a new line does not count. -/
def joinLineEnds : List Char → List Char
  | '\r' :: '\n' :: rest => '\n' :: joinLineEnds rest
  | c :: rest => c :: joinLineEnds rest
  | [] => []

/-- The record that a TOML document spells, with values of at most such a depth. Tables that are opened
by headers or dotted keys cost nothing. -/
def readWithin (depth : Nat) (s : String) : Except Fault Value := do
  let cs := joinLineEnds s.toList
  let draft ← Draft.statements depth (cs.length + 1) {} cs
  return .record draft.table

end SparseWeights.Toml
