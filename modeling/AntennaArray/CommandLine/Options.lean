import AntennaArray.Decimal.Reading
import AntennaArray.Disk
import AntennaArray.Panel.Basic

/-!
# Options of a simulation

What a simulation can be told: an array, where to steer it, how finely to sweep it, and which files
to write. An option is a flag, which has no value, or a parameter, which is given one or, by two
dashes in its place, nothing. Each option has one name or more. A misuse says what is wrong with the
words of a command line.
-/

namespace AntennaArray.CommandLine

/-- An option without a value. -/
inductive Flag where
  | help
  | verbose
deriving DecidableEq

/-- An option with a value. -/
inductive Parameter where
  | preset
  | element
  | config
  | name
  | steerTheta
  | steerPhi
  | resolution
  | table
  | record
  | view
deriving DecidableEq

/-- An option. -/
inductive Switch where
  | flag (f : Flag)
  | parameter (p : Parameter)
deriving DecidableEq

namespace Switch

/-- The options in the order in which they are listed. -/
def all : List Switch := [.flag .help, .parameter .preset, .parameter .element, .parameter .config,
  .parameter .name, .parameter .steerTheta, .parameter .steerPhi, .parameter .resolution,
  .parameter .table, .parameter .record, .parameter .view, .flag .verbose]

def names : Switch → List String
  | .flag .help => ["-h", "--help"]
  | .flag .verbose => ["--verbose", "-v"]
  | .parameter .preset => ["--preset"]
  | .parameter .element => ["--element"]
  | .parameter .config => ["--config"]
  | .parameter .name => ["--name"]
  | .parameter .steerTheta => ["--steer-theta"]
  | .parameter .steerPhi => ["--steer-phi"]
  | .parameter .resolution => ["--resolution"]
  | .parameter .table => ["--out-csv"]
  | .parameter .record => ["--out-h5"]
  | .parameter .view => ["--html"]

/-- An option as it is reported. -/
def title (s : Switch) : String := "/".intercalate s.names

/-- All names with their options. -/
def known : List (String × Switch) := all.flatMap fun s => s.names.map fun name => (name, s)

def named? (name : Text) : Option Switch :=
  (known.find? fun k => name == Text.ofString k.1).map (·.2)

end Switch

/-- What is wrong with a command line. -/
inductive Misuse where
  | ambiguous (word : Text) (candidates : List String)
  | missingValue (p : Parameter)
  | strayValue (f : Flag) (value : Text)
  | notInteger (p : Parameter) (value : Text)
  | notDouble (p : Parameter) (value : Text)
  | unknownChoice (p : Parameter) (value : Text) (choices : List String)
  | unrecognized (words : List Text)

namespace Misuse

/-- A sentence about one option. -/
def about (s : Switch) (sentence : String) : String := "argument " ++ s.title ++ ": " ++ sentence

def message : Misuse → Text
  | .ambiguous word candidates =>
    "ambiguous option: " ++ word ++ " could match " ++ ", ".intercalate candidates
  | .missingValue p => about (.parameter p) "expected one argument"
  | .strayValue f value => about (.flag f) ("ignored explicit argument " ++ Text.quoted value)
  | .notInteger p value => about (.parameter p) ("invalid int value: " ++ Text.quoted value)
  | .notDouble p value => about (.parameter p) ("invalid float value: " ++ Text.quoted value)
  | .unknownChoice p value choices => about (.parameter p)
      ("invalid choice: " ++ Text.quoted value ++ " (choose from "
        ++ ", ".intercalate (choices.map fun c => Text.quoted (Text.ofString c)) ++ ")")
  | .unrecognized words => "unrecognized arguments: " ++ (" " : Text).intercalate words

end Misuse

/-- What a parameter is given. -/
inductive Given (α : Type) where
  | value (x : α)
  | nothing

namespace Given

variable {α β : Type}

/-- What is given as a value; nothing is an empty list. -/
def toValue (f : α → Value) : Given α → Value
  | .value x => f x
  | .nothing => .list []

/-- What is given, once it is read. -/
def read (f : α → Except Misuse β) : Given α → Except Misuse (Given β)
  | .value x => (f x).map .value
  | .nothing => .ok .nothing

def path (given : Given Text) : Path := .ofText (given.toValue .text).plain

end Given

/-- What a simulation is told. -/
structure Options where
  preset : Given Text
  element : Given Text
  config : Option (Given Path)
  name : Given Text
  steerTheta : Given Float
  steerPhi : Given Float
  resolution : Given Int
  table : Path
  record : Option Path
  view : Option Path
  verbose : Bool

namespace Options

/-- What holds if nothing is said. -/
def default : Options where
  preset := .value "planar_4x4"
  element := .value "3gpp"
  config := none
  name := .value "default"
  steerTheta := .value 90
  steerPhi := .value 0
  resolution := .value 100
  table := .ofText "simulation_results.csv"
  record := none
  view := none
  verbose := false

def presetNames : List String :=
  (Panel.presets.map (·.1)).mergeSort fun a b => decide (a ≤ b)

/-- The name of a panel that a parameter is given. -/
def choice (p : Parameter) (value : Text) : Except Misuse Text :=
  if presetNames.any (value == Text.ofString ·) then .ok value
  else .error (.unknownChoice p value presetNames)

def integer (p : Parameter) (value : Text) : Except Misuse Int :=
  match Decimal.readInteger value.toChars with
  | .ok n => .ok n
  | .error _ => .error (.notInteger p value)

def double (p : Parameter) (value : Text) : Except Misuse Float :=
  match Decimal.readDouble? value.toChars with
  | some x => .ok x
  | none => .error (.notDouble p value)

def set (o : Options) (p : Parameter) (given : Given Text) : Except Misuse Options := do
  match p with
  | .preset => return { o with preset := ← given.read (choice p) }
  | .element => return { o with element := given }
  | .config => return { o with config := some (← given.read fun value => .ok (.ofText value)) }
  | .name => return { o with name := given }
  | .steerTheta => return { o with steerTheta := ← given.read (double p) }
  | .steerPhi => return { o with steerPhi := ← given.read (double p) }
  | .resolution => return { o with resolution := ← given.read (integer p) }
  | .table => return { o with table := given.path }
  | .record => return { o with record := some given.path }
  | .view => return { o with view := some given.path }

end Options

end AntennaArray.CommandLine
