import SparseWeights.Data.Files

/-!
Addresses in the place of paths. Some kinds of addresses are fetched from another host, which is never
reached; those of files lead to the files that are here. Other kinds would need a transport that is not
there.
-/

namespace SparseWeights.Address

def fetchedKinds : List String := ["file", "ftp", "git", "git+ssh", "gopher", "hdl", "http", "https",
  "imap", "mms", "nfs", "nntp", "prospero", "rsync", "rtsp", "rtsps", "rtspu", "sftp", "shttp", "sip",
  "sips", "snews", "svn", "svn+ssh", "tel", "telnet", "wais", "ws", "wss"]

def isKindChar (c : Char) : Bool := c.isAlphanum || c == '+' || c == '-' || c == '.'

/-- What stands in front of the first colon, and what stands behind it. -/
def split? (name : String) : Option (String × String) :=
  let cs := name.toList
  match cs.dropWhile (· != ':') with
  | _ :: rest =>
    some ((String.ofList (cs.takeWhile (· != ':'))).toLower, String.ofList rest)
  | [] => none

/-- The kind of an address that is fetched, and what it leads to. -/
def fetched? (name : String) : Option (String × String) :=
  (split? name).filter fun address => fetchedKinds.contains address.1

/-- Whether a name is an address of any kind: the names of one transport or more, with two colons between
them, in front of a colon and two slashes. -/
def isAddress (name : String) : Bool :=
  match name.splitOn "://" with
  | kinds :: _ :: _ =>
    (kinds.toList.head?.any Char.isAlpha) &&
      (kinds.splitOn "::").all fun kind => kind != "" && kind.all isKindChar
  | _ => false

def read (files : Files) (path : Path) : Except Fault String :=
  match fetched? path.text with
  | none => files.read path
  | some ("file", name) =>
    match files.read (Path.ofName name) with
    | .ok text => .ok text
    | .error .unreadable => .error .unreadable
    | .error _ => .error .unreachable
  | some _ => .error .unreachable

end SparseWeights.Address
