import AntennaArray.Decimal.Reading
import AntennaArray.Value

/-!
# Tokens of a JSON text

A JSON text is cut into brackets, commas, colons, texts and other scalars, each with the position of
its first code point. White space between tokens is skipped. The first place where no token can be
read ends the list, with a token that says what is wrong there.
-/

namespace AntennaArray.Json

open AntennaArray.Decimal (isDigit ofDigits splitDigits toDouble)

/-- What can be wrong with a JSON text. -/
inductive Problem where
  | missingValue
  | missingKey
  | missingColon
  | missingComma
  | extraData
  | unterminated
  | controlCharacter
  | badEscape
  | badCodePoint
  | byteOrderMark
  /-- An integer has so many digits that it is not converted. -/
  | tooManyDigits (count : Nat)
  /-- A list, or else an object, is nested too deeply. -/
  | tooDeep (isList : Bool)
deriving DecidableEq

/-- Whether a problem is one of form, and not of size. -/
def Problem.isFormal : Problem → Bool
  | .tooManyDigits _ => false
  | .tooDeep _ => false
  | _ => true

def Problem.message : Problem → String
  | .missingValue => "Expecting value"
  | .missingKey => "Expecting property name enclosed in double quotes"
  | .missingColon => "Expecting ':' delimiter"
  | .missingComma => "Expecting ',' delimiter"
  | .extraData => "Extra data"
  | .unterminated => "Unterminated string starting at"
  | .controlCharacter => "Invalid control character at"
  | .badEscape => "Invalid \\escape"
  | .badCodePoint => "Invalid \\uXXXX escape"
  | .byteOrderMark => "Unexpected UTF-8 BOM (decode using utf-8-sig)"
  | .tooManyDigits count => Decimal.tooManyDigitsText count
  | .tooDeep isList => "maximum recursion depth exceeded while decoding a JSON "
      ++ (if isList then "array" else "object") ++ " from a unicode string"

inductive Token where
  | openList
  | closeList
  | openObject
  | closeObject
  | comma
  | colon
  | text (s : Text)
  | scalar (v : Value)
  /-- A text that is not well formed, from the given offset on. -/
  | badText (p : Problem) (offset : Nat)
  | badNumber (digits : Nat)
  | unknown

/-- A token and the position of its first code point. -/
structure Located where
  position : Nat
  token : Token

/-! ## Texts -/

def hexValue? (c : Char) : Option Nat :=
  if '0' ≤ c ∧ c ≤ '9' then some (c.toNat - 48)
  else if 'a' ≤ c ∧ c ≤ 'f' then some (c.toNat - 87)
  else if 'A' ≤ c ∧ c ≤ 'F' then some (c.toNat - 55)
  else none

/-- The value of a code point that is a digit of base sixteen. -/
def hexDigit? : CodePoint → Option Nat
  | .char c => hexValue? c
  | .surrogate _ => none

/-- The value of four digits of base sixteen. -/
def codeUnit? (a b c d : CodePoint) : Option Nat := do
  return ((← hexDigit? a) * 16 + (← hexDigit? b)) * 256 + (← hexDigit? c) * 16 + (← hexDigit? d)

/-- The character that a letter stands for after a backslash. -/
def escapedChar? : CodePoint → Option Char
  | .char '"' => some '"'
  | .char '\\' => some '\\'
  | .char '/' => some '/'
  | .char 'b' => some '\x08'
  | .char 'f' => some '\x0c'
  | .char 'n' => some '\n'
  | .char 'r' => some '\r'
  | .char 't' => some '\t'
  | _ => none

/-- A piece of a text between quotes. -/
inductive Piece where
  /-- A code point that stands there itself or is escaped by a letter. -/
  | plain (p : CodePoint)
  /-- A code unit that is escaped by its digits. -/
  | unit (u : Nat)

/-- The pieces of a text up to its closing quote, and the offset after that quote. A code unit needs
a code point after it, since the text must be closed. -/
def textPieces (offset : Nat) : Text → Except (Problem × Nat) (List Piece × Nat)
  | [] => .error (.unterminated, 0)
  | .char '"' :: _ => .ok ([], offset + 1)
  | .char '\\' :: .char 'u' :: a :: b :: c :: d :: next :: rest =>
    match codeUnit? a b c d with
    | some u => (textPieces (offset + 6) (next :: rest)).map fun (ps, e) => (.unit u :: ps, e)
    | none => .error (.badCodePoint, offset + 1)
  | .char '\\' :: .char 'u' :: _ => .error (.badCodePoint, offset + 1)
  | .char '\\' :: p :: rest =>
    match escapedChar? p with
    | some c => (textPieces (offset + 2) rest).map fun (ps, e) => (.plain (.char c) :: ps, e)
    | none => .error (.badEscape, offset)
  | p :: rest =>
    if p = .char '\\' then .error (.unterminated, 0)
    else if p.value < 32 then .error (.controlCharacter, offset)
    else (textPieces (offset + 1) rest).map fun (ps, e) => (.plain p :: ps, e)

/-- The text of some pieces: a high and a low surrogate together, both escaped by their digits, are
one character. -/
def joinPieces : List Piece → Text
  | [] => []
  | .plain p :: rest => p :: joinPieces rest
  | .unit u :: .unit v :: rest =>
    if 0xD800 ≤ u ∧ u ≤ 0xDBFF ∧ 0xDC00 ≤ v ∧ v ≤ 0xDFFF then
      .ofValue (0x10000 + (u - 0xD800) * 0x400 + (v - 0xDC00)) :: joinPieces rest
    else .ofValue u :: joinPieces (.unit v :: rest)
  | .unit u :: rest => .ofValue u :: joinPieces rest

/-- The text that starts after a quote, with its length. -/
def textToken (body : Text) : Token × Nat :=
  match textPieces 1 body with
  | .ok (pieces, length) => (.text (joinPieces pieces), length)
  | .error (problem, offset) => (.badText problem offset, 1)

/-! ## Numbers and words -/

/-- The digits before the point: a zero stands alone. -/
def wholePart (text : List Char) : List Nat × List Char :=
  match text with
  | '0' :: rest => ([0], rest)
  | _ => splitDigits text

/-- The digits after the point; without digits the point is not part of the number. -/
def fractionPart (text : List Char) : List Nat × List Char :=
  match text with
  | '.' :: rest => match splitDigits rest with
    | ([], _) => ([], text)
    | parts => parts
  | _ => ([], text)

/-- The exponent with its length; without digits its letter is not part of the number. -/
def exponentPart (text : List Char) : Option (Int × Nat) :=
  match text with
  | c :: rest =>
    if c = 'e' ∨ c = 'E' then
      let (negative, digits) := Decimal.splitSign rest
      let signs := if rest.head?.any fun s => s = '-' || s = '+' then 1 else 0
      match splitDigits digits with
      | ([], _) => none
      | (ds, _) =>
        some (if negative then -(ofDigits ds : Int) else ofDigits ds, 1 + signs + ds.length)
    else none
  | [] => none

/-- The integer with the given digits; with too many of them it is not converted. -/
def integerToken (negative : Bool) (digits : List Nat) : Token :=
  if Decimal.digitLimit < digits.length then .badNumber digits.length
  else
    let n : Int := ofDigits digits
    .scalar (.number (.integer (if negative then -n else n)))

def numberToken (negative : Bool) (text : List Char) : Token × Nat :=
  let (whole, rest) := wholePart text
  if whole.isEmpty then (.unknown, 0)
  else
    let (fraction, rest) := fractionPart rest
    let exponent := exponentPart rest
    if fraction.isEmpty && exponent.isNone then (integerToken negative whole, whole.length)
    else
      let (scale, length) := exponent.getD (0, 0)
      let points := if fraction.isEmpty then 0 else 1
      (.scalar (.number (.double
          (toDouble negative (ofDigits (whole ++ fraction)) (scale - fraction.length)))),
        whole.length + points + fraction.length + length)

/-- The words of JSON, with three for doubles that have no digits. -/
def words : List (List Char × Value) := [
  ("null".toList, .null), ("true".toList, .bool true), ("false".toList, .bool false),
  ("NaN".toList, .number (.double Binary64.nan)),
  ("Infinity".toList, .number (.double (Binary64.infinite false))),
  ("-Infinity".toList, .number (.double (Binary64.infinite true)))]

/-- The word or number at the front of a text, with its length. -/
def scalarToken (text : List Char) : Token × Nat :=
  match words.find? fun w => w.1.isPrefixOf text with
  | some (word, v) => (.scalar v, word.length)
  | none =>
    match text with
    | '-' :: digits =>
      let (token, length) := numberToken true digits
      (token, length + 1)
    | _ => numberToken false text

/-- Whether a character may stand in a number or a word. -/
def isScalarChar (c : Char) : Bool := c.isAlphanum || c = '+' || c = '-' || c = '.'

/-- The characters at the front of a text that may stand in a number or a word. -/
def scalarChars : Text → List Char
  | .char c :: rest => if isScalarChar c then c :: scalarChars rest else []
  | _ => []

/-! ## The whole text -/

def isSpace (p : CodePoint) : Bool :=
  p = .char ' ' || p = .char '\t' || p = .char '\n' || p = .char '\r'

/-- The token that starts with `p`, with its length. -/
def tokenAt (p : CodePoint) (rest : Text) : Token × Nat :=
  match p with
  | .char '[' => (.openList, 1)
  | .char ']' => (.closeList, 1)
  | .char '{' => (.openObject, 1)
  | .char '}' => (.closeObject, 1)
  | .char ',' => (.comma, 1)
  | .char ':' => (.colon, 1)
  | .char '"' => textToken rest
  | _ => scalarToken (scalarChars (p :: rest))

/-- Whether nothing is read after a token. -/
def Token.isLast : Token → Bool
  | .badText .. => true
  | .badNumber _ => true
  | .unknown => true
  | _ => false

/-- The tokens of a text that starts at `position`, after `skip` code points of a token that has
been read already. -/
def tokens (position skip : Nat) : Text → List Located
  | [] => []
  | p :: rest =>
    match skip with
    | n + 1 => tokens (position + 1) n rest
    | 0 =>
      if isSpace p then tokens (position + 1) 0 rest
      else
        let (token, length) := tokenAt p rest
        ⟨position, token⟩ :: if token.isLast then [] else tokens (position + 1) (length - 1) rest

/-- White space in front of a text only moves its tokens. -/
theorem tokens_space (position : Nat) {p : CodePoint} (h : isSpace p = true) (rest : Text) :
    tokens position 0 (p :: rest) = tokens (position + 1) 0 rest := by
  simp [tokens, h]

end AntennaArray.Json
