import SparseWeights.Data.Value
import SparseWeights.Text.Digit

/-!
Command lines. Options start with two hyphens and may be cut short as long as one option is meant; a
value is the next word, or follows an equals sign. Two hyphens alone are no value: behind an equals sign
they leave the option with an empty list. Words are taken from left to right: a request for help ends
the reading, and so does an option that is not given what it needs. Words that nothing asks for, and
options that are missing, are found at the end.
-/

namespace SparseWeights.Options

structure Flag where
  name : String
  /-- What its value has to be like; an option without a condition takes no value. -/
  accepts : Option (String → Bool)
  required : Bool

def Flag.text (name : String) : Flag := ⟨name, some fun _ => true, false⟩

def Flag.switch (name : String) : Flag := ⟨name, none, false⟩

def help : List String := ["-h", "--help"]

inductive Word where
  | value (text : String)
  | option (name : String) (attached : Option String)
  | unknown
  /-- More than one option could be meant. -/
  | ambiguous
  deriving DecidableEq, Repr

def splitAttached (word : String) : String × Option String :=
  let cs := word.toList
  match cs.dropWhile (· != '=') with
  | _ :: rest => (String.ofList (cs.takeWhile (· != '=')), some (String.ofList rest))
  | [] => (word, none)

/-- The digits of any script at the start of a text, and what follows them. -/
def digitSpan (cs : List Char) : List Char × List Char :=
  cs.span fun c => (Text.digit? c).isSome

/-- Whether a text is over, but for one new line. -/
def isOver (cs : List Char) : Bool := cs == [] || cs == ['\n']

/-- Whether a word is a negative number without an exponent. -/
def isNegativeNumber (word : String) : Bool :=
  match word.toList with
  | '-' :: rest =>
    match digitSpan rest with
    | (_, '.' :: rest) =>
      let (places, rest) := digitSpan rest
      !places.isEmpty && isOver rest
    | (whole, rest) => !whole.isEmpty && isOver rest
  | _ => false

def refused : Nat := 2

/-- The exit code of a request for help with something attached: one may only ask for it again. -/
def helpCode (name : String) : Option String → Nat
  | none => 0
  | some attached =>
    if name = "-h" ∧ attached ≠ "" ∧ attached.toList.all (· == 'h') then 0 else refused

/-- The long options that a word may be short for. -/
def candidates (names : List String) (short : String) : List String :=
  if short.startsWith "--" then names.filter fun name => short.toList.isPrefixOf name.toList else []

def classify (names : List String) (word : String) : Word :=
  if !word.startsWith "-" || word.length = 1 then .value word
  else if names.contains word then .option word none
  else
    let (name, attached) := splitAttached word
    if attached.isSome && names.contains name then .option name attached
    else
      match candidates names name, word.toList with
      | [name], _ => .option name attached
      | _ :: _ :: _, _ => .ambiguous
      | [], '-' :: 'h' :: rest => .option "-h" (some (String.ofList rest))
      | [], _ => if isNegativeNumber word || word.contains ' ' then .value word else .unknown

/-- The words of a command line. Behind two hyphens all are values; the hyphens themselves are nothing
that is asked for. -/
def words (names : List String) : List String → List Word
  | [] => []
  | word :: rest =>
    if word = "--" then .unknown :: rest.map .value else classify names word :: words names rest

/-- The options that were given, the last ones in front, and whether words were left over. -/
structure Given where
  options : List (String × Value) := []
  leftOver : Bool := false

def Given.put (given : Given) (flag : Flag) (value : String) : Except Nat Given :=
  if flag.accepts.any fun accepts => accepts value then
    .ok { given with options := (flag.name, .text value) :: given.options }
  else .error refused

def Given.putAttached (given : Given) (flag : Flag) (value : String) : Except Nat Given :=
  if flag.accepts.isSome ∧ value = "--" then
    .ok { given with options := (flag.name, .list []) :: given.options }
  else given.put flag value

def take (flags : List Flag) : List Word → Given → Except Nat Given
  | [], given => .ok given
  | .value _ :: rest, given => take flags rest { given with leftOver := true }
  | .unknown :: rest, given => take flags rest { given with leftOver := true }
  | .ambiguous :: _, _ => .error refused
  | .option name attached :: rest, given =>
    if help.contains name then .error (helpCode name attached)
    else
      match flags.find? fun flag => flag.name == name with
      | none => .error refused
      | some flag =>
        match flag.accepts, attached, rest with
        | none, none, rest =>
          take flags rest { given with options := (name, .bool true) :: given.options }
        | none, some _, _ => .error refused
        | some _, some value, rest => (given.putAttached flag value).bind (take flags rest)
        | some _, none, .value value :: rest => (given.put flag value).bind (take flags rest)
        | some _, none, _ => .error refused

def Given.has (given : Given) (name : String) : Bool :=
  given.options.any fun option => option.1 == name

/-- The value of an option: the last one that was given. -/
def Given.get? (given : Given) (name : String) : Option Value :=
  (given.options.find? fun option => option.1 == name).map (·.2)

/-- The options of a command line, or the exit code of its refusal. -/
def read (flags : List Flag) (arguments : List String) : Except Nat Given := do
  let words := words (help ++ flags.map (·.name)) arguments
  if words.contains .ambiguous then .error refused
  else
    let given ← take flags words {}
    if given.leftOver || flags.any fun flag => flag.required && !given.has flag.name then
      .error refused
    else return given

end SparseWeights.Options
