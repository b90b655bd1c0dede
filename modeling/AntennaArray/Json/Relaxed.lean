import AntennaArray.Json.Reader
import AntennaArray.Text.Blank

/-!
# JSON with comments

A description file may hold comments, between `/*` and `*/` or from `//` to the end of a line, and a
comma before a closing bracket. `plain` takes them out in three passes over the whole text, and
`readRelaxed` reads what is left.
-/

namespace AntennaArray.Json

open AntennaArray.Text (isBlank lines)

/-- How many code points there are up to the end of the first `*/`. -/
def closing? : Text → Option Nat
  | [] => none
  | .char '*' :: .char '/' :: _ => some 2
  | _ :: rest => (closing? rest).map (· + 1)

/-- The text without its block comments, after `skip` code points of one; a comment that is never
closed is none. -/
def dropBlocks (skip : Nat) : Text → Text
  | [] => []
  | c :: rest =>
    match skip with
    | n + 1 => dropBlocks n rest
    | 0 =>
      if c = .char '/' ∧ rest.head? = some (.char '*') then
        match closing? rest.tail with
        | some n => dropBlocks (n + 1) rest
        | none => c :: dropBlocks 0 rest
      else c :: dropBlocks 0 rest

/-- The part of a line before its first `//`. -/
def beforeSlashes : Text → Text
  | [] => []
  | .char '/' :: .char '/' :: _ => []
  | c :: rest => c :: beforeSlashes rest

/-- The lines of a text without their comments, with a line feed between them. -/
def dropLineComments (text : Text) : Text :=
  ("\n" : Text).intercalate ((lines text).map beforeSlashes)

/-- Whether the first code point that is not a blank closes a list or an object. -/
def closesNext (text : Text) : Bool :=
  match text.dropWhile (isBlank ·.value) with
  | .char ']' :: _ => true
  | .char '}' :: _ => true
  | _ => false

/-- The text without the commas that stand before a closing bracket. -/
def dropTrailingCommas : Text → Text
  | [] => []
  | c :: rest =>
    if c = .char ',' && closesNext rest then dropTrailingCommas rest
    else c :: dropTrailingCommas rest

/-- The text without comments and trailing commas. -/
def plain (text : Text) : Text :=
  dropTrailingCommas (dropLineComments (dropBlocks 0 text))

/-- The value that a text with comments spells; positions of problems are those in `plain text`. -/
def readRelaxed (text : Text) : Except Malformed Value := read (plain text)

end AntennaArray.Json
