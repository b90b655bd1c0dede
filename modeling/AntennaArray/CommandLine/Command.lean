import AntennaArray.CommandLine.Word

/-!
# Commands of a command line

The words of a command line are turned into commands: raise a flag, set a parameter, leave a word
over, report a misuse. Commands are obeyed in their order, so the first that fails is reported; the
flag for help ends the reading. Words that are left over are reported together at the end.
-/

namespace AntennaArray.CommandLine

inductive Command where
  | raise (f : Flag)
  | set (p : Parameter) (given : Given Text)
  | leave (word : Text)
  | report (m : Misuse)

namespace Command

/-- The commands of a short flag with a text attached, in which each code point has to name one more
flag; otherwise none of the flags is raised. -/
def ofFlags (f : Flag) : Text → Except Misuse (List Command)
  | [] => .ok [.raise f]
  | p :: rest =>
    match Switch.named? [.char '-', p] with
    | some (.flag g) => (ofFlags g rest).map (.raise f :: ·)
    | _ => .error (.strayValue f (p :: rest))

def ofFlag (f : Flag) : Attached → Except Misuse (List Command)
  | .nothing => .ok [.raise f]
  | .short [] => .error (.strayValue f [])
  | .short text => ofFlags f text
  | .long text => .error (.strayValue f text)

/-- What a text that is attached to a parameter gives it: two dashes give nothing. -/
def given (text : Text) : Given Text := if text == "--" then .nothing else .value text

/-- Commands, or the misuse in their place. -/
def orReport : Except Misuse (List Command) → List Command
  | .ok commands => commands
  | .error m => [.report m]

def ofWords : List (Text × Word) → List Command
  | [] => []
  | (_, .option (.flag f) attached) :: rest => orReport (ofFlag f attached) ++ ofWords rest
  | (_, .option (.parameter p) (.short text)) :: rest => .set p (given text) :: ofWords rest
  | (_, .option (.parameter p) (.long text)) :: rest => .set p (given text) :: ofWords rest
  | (_, .option (.parameter p) .nothing) :: (value, .value) :: rest =>
    .set p (.value value) :: ofWords rest
  | (_, .option (.parameter p) .nothing) :: rest => .report (.missingValue p) :: ofWords rest
  | (word, _) :: rest => .leave word :: ofWords rest

end Command

/-- Why a reading ends early. -/
inductive Halt where
  | help
  | misuse (m : Misuse)

/-- The options with the words that are left over, after one command. -/
def obey (state : Options × List Text) : Command → Except Halt (Options × List Text)
  | .raise .help => .error .help
  | .raise .verbose => .ok ({ state.1 with verbose := true }, state.2)
  | .set p given =>
    match state.1.set p given with
    | .ok o => .ok (o, state.2)
    | .error m => .error (.misuse m)
  | .leave word => .ok (state.1, state.2 ++ [word])
  | .report m => .error (.misuse m)

def read (words : List Text) : Except Halt Options :=
  match Word.ofTexts words with
  | .error m => .error (.misuse m)
  | .ok ws =>
    match (Command.ofWords ws).foldlM obey (Options.default, []) with
    | .error h => .error h
    | .ok (o, []) => .ok o
    | .ok (_, left) => .error (.misuse (.unrecognized left))

end AntennaArray.CommandLine
