import AntennaArray.Value

/-!
# Values as JSON texts

Every character beyond printable ASCII is escaped; one outside the basic plane takes two code units.
Commas and colons are followed by a space. Doubles without digits have words of their own.
-/

namespace AntennaArray.Json

/-- A code unit with four digits. -/
def unitText (u : Nat) : List Char := '\\' :: 'u' :: Text.hexDigits 4 u

def charText (c : Char) : List Char :=
  if c = '"' ∨ c = '\\' then ['\\', c]
  else if c = '\n' then ['\\', 'n']
  else if c = '\r' then ['\\', 'r']
  else if c = '\t' then ['\\', 't']
  else if c = '\x0c' then ['\\', 'f']
  else if c = '\x08' then ['\\', 'b']
  else if 32 ≤ c.toNat ∧ c.toNat < 127 then [c]
  else if c.toNat < 0x10000 then unitText c.toNat
  else
    let rest := c.toNat - 0x10000
    unitText (0xD800 + rest / 0x400) ++ unitText (0xDC00 + rest % 0x400)

def codePointText : CodePoint → List Char
  | .char c => charText c
  | .surrogate offset => unitText (0xD800 + offset)

def textText (s : Text) : String := String.ofList ('"' :: s.flatMap codePointText ++ ['"'])

/-- A number: a double keeps its point or exponent. -/
def numberText : Number → String
  | .integer n => toString n
  | .double x =>
    if x.isNaN then "NaN"
    else if x.isInf then if x < 0 then "-Infinity" else "Infinity"
    else Decimal.shortestText x

mutual

def write : Value → String
  | .null => "null"
  | .bool true => "true"
  | .bool false => "false"
  | .number n => numberText n
  | .text s => textText s
  | .list items => "[" ++ writeItems items ++ "]"
  | .object fields => "\x7b" ++ writeFields fields ++ "\x7d"

def writeItems : List Value → String
  | [] => ""
  | [v] => write v
  | v :: rest => write v ++ ", " ++ writeItems rest

def writeFields : List (Text × Value) → String
  | [] => ""
  | [(key, v)] => textText key ++ ": " ++ write v
  | (key, v) :: rest => textText key ++ ": " ++ write v ++ ", " ++ writeFields rest

end

end AntennaArray.Json
