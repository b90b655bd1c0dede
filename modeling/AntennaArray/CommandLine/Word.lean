import AntennaArray.CommandLine.Options

/-!
# Words of a command line

Each word is an option, possibly with a text attached, or a value; a word in the form of an option
that is none is kept apart. A long option may be shortened as long as it is the only one that starts
so. Negative numbers and words with a space are values, and after two dashes all words are.
-/

namespace AntennaArray.CommandLine

/-- What stands in one word with the name of an option. -/
inductive Attached where
  | nothing
  /-- What follows a short name, with or without a sign of equality between them. -/
  | short (text : Text)
  /-- What follows the sign of equality after a long name. -/
  | long (text : Text)

inductive Word where
  | value
  | separator
  | option (s : Switch) (attached : Attached)
  /-- The form of an option without its meaning. -/
  | unknown

namespace Word

def equality : CodePoint := .char '='

/-- A word up to its first sign of equality, and what follows the sign. -/
def splitAssignment (word : Text) : Text × Option Text :=
  match word.dropWhile (· != equality) with
  | [] => (word, none)
  | _ :: text => (word.takeWhile (· != equality), some text)

/-- Whether a word is a negative number: digits, and a fraction after a point. A line feed at its
end does not count. -/
def isNegativeNumber (word : List Char) : Bool :=
  let isDigit (c : Char) : Bool := (Text.decimalDigit? c).isSome
  let ends (cs : List Char) : Bool := cs == [] || cs == ['\n']
  match word with
  | '-' :: rest =>
    match rest.dropWhile isDigit with
    | '.' :: fraction => fraction.head?.any isDigit && ends (fraction.dropWhile isDigit)
    | tail => rest.head?.any isDigit && ends tail
  | _ => false

/-- What the sign of equality attaches to a long name. -/
def attachment : Option Text → Attached
  | none => .nothing
  | some text => .long text

def candidates (word : Text) : List (String × Word) :=
  match word with
  | .char '-' :: .char '-' :: _ =>
    let (start, text) := splitAssignment word
    (Switch.known.filter fun (name, _) => start.isPrefixOf (Text.ofString name)).map
      fun (name, s) => (name, .option s (attachment text))
  | .char '-' :: p :: rest =>
    (Switch.known.filter fun (name, _) => Text.ofString name == [.char '-', p]).map
      fun (name, s) => (name, .option s (.short rest))
  | _ => []

/-- A word that starts with a dash and is no name of an option. -/
def ofDashed (word : Text) : Except Misuse Word :=
  match candidates word with
  | [(_, w)] => .ok w
  | [] =>
    let isValue := isNegativeNumber word.toChars || word.contains (.char ' ')
    .ok (if isValue then .value else .unknown)
  | several => .error (.ambiguous word (several.map (·.1)))

/-- An option by its full name, alone or with the sign of equality. -/
def ofName? (word : Text) : Option Word :=
  match Switch.named? word with
  | some s => some (.option s .nothing)
  | none =>
    match splitAssignment word with
    | (name, some text) => (Switch.named? name).map fun s =>
        .option s (if name.length = 2 then .short text else .long text)
    | _ => none

def ofText (word : Text) : Except Misuse Word :=
  match word with
  | [.char '-'] => .ok .value
  | .char '-' :: _ =>
    match ofName? word with
    | some w => .ok w
    | none => ofDashed word
  | _ => .ok .value

def ofTexts : List Text → Except Misuse (List (Text × Word))
  | [] => .ok []
  | [.char '-', .char '-'] :: rest => .ok (("--", .separator) :: rest.map (·, .value))
  | word :: rest => do
    let w ← ofText word
    return (word, w) :: (← ofTexts rest)

end Word

end AntennaArray.CommandLine
