import AntennaArray.Decimal.Digits
import AntennaArray.Text.Blank
import AntennaArray.Text.DecimalDigit

/-!
# Numbers from text

A number is read in the digits of any script, with blanks around it and single underscores between
its digits. `readInteger` reads a signed whole number, `spelled?` a signed decimal or one of the
words for infinity and for not a number, and `readDouble?` rounds what is spelled; each refuses a
text that holds anything else.
-/

namespace AntennaArray.Decimal

-- powers are repeated products, whichever other powers are known
attribute [local instance (high)] instPowNat

open AntennaArray.Text (asciiDigit? decimalDigit? isOuterBlank strip)

/-- The number that digits spell, the most significant first. -/
def ofDigits (digits : List Nat) : Nat := digits.foldl (fun n d => 10 * n + d) 0

/-- The double nearest to `± digits * 10 ^ exponent`; far outside the range no power is formed. -/
def toDouble (negative : Bool) (digits : Nat) (exponent : Int) : Float :=
  if digits = 0 then Binary64.zero negative
  else if 400 < exponent then Binary64.infinite negative
  else if exponent < -(400 + digits.log2 : Int) then Binary64.zero negative
  else if 0 ≤ exponent then Binary64.ofQuotient negative (digits * 10 ^ exponent.toNat) 1
  else Binary64.ofQuotient negative digits (10 ^ (-exponent).toNat)

/-- A character as the ASCII digit of the same value, if it is a digit. -/
def plainDigit (c : Char) : Char :=
  match decimalDigit? c with
  | some d => Char.ofNat (48 + d)
  | none => c

def isDigit (c : Char) : Bool := (asciiDigit? c).isSome

/-- A text without the underscores that stand alone between two digits. -/
def joinDigits (afterDigit : Bool) : List Char → List Char
  | [] => []
  | c :: rest =>
    if c = '_' && afterDigit && rest.head?.any isDigit then joinDigits false rest
    else c :: joinDigits (isDigit c) rest

/-- A text prepared for reading: stripped, in ASCII digits, without underscores between them. -/
def prepared (text : List Char) : List Char :=
  joinDigits false ((strip (fun c => isOuterBlank c.toNat) text).map plainDigit)

/-- A sign, if there is one, and what follows it. -/
def splitSign : List Char → Bool × List Char
  | '-' :: rest => (true, rest)
  | '+' :: rest => (false, rest)
  | rest => (false, rest)

/-- The digits at the front of a text, and what follows them. -/
def splitDigits (text : List Char) : List Nat × List Char :=
  ((text.takeWhile isDigit).filterMap asciiDigit?, text.dropWhile isDigit)

/-- Each digit that is split off has a value. -/
theorem length_filterMap_asciiDigit? {cs : List Char} (h : ∀ c ∈ cs, isDigit c = true) :
    (cs.filterMap asciiDigit?).length = cs.length := by
  induction cs with
  | nil => rfl
  | cons c cs ih =>
    obtain ⟨d, hd⟩ := Option.isSome_iff_exists.mp (h c List.mem_cons_self)
    rw [List.filterMap_cons_some hd, List.length_cons, List.length_cons,
      ih fun x hx => h x (List.mem_cons_of_mem c hx)]

/-- A signed whole number of one digit or more, and nothing else. -/
def wholeNumber? (text : List Char) : Option Int :=
  let (negative, rest) := splitSign text
  match splitDigits rest with
  | ([], _) => none
  | (digits, []) => some (if negative then -(ofDigits digits : Int) else ofDigits digits)
  | _ => none

/-- A fraction, if there is one, and what follows it. -/
def splitFraction : List Char → List Nat × List Char
  | '.' :: rest => splitDigits rest
  | rest => ([], rest)

/-- An exponent that ends the text; nothing stands for zero. -/
def exponent? : List Char → Option Int
  | [] => some 0
  | c :: rest => if c = 'e' ∨ c = 'E' then wholeNumber? rest else none

/-- A decimal without a sign, and nothing else. -/
def decimal? (text : List Char) : Option Scaled :=
  let (whole, rest) := splitDigits text
  let (fraction, rest) := splitFraction rest
  if whole.isEmpty && fraction.isEmpty then none
  else (exponent? rest).map fun e => ⟨ofDigits (whole ++ fraction), e - fraction.length⟩

/-- What the text of a number says, before it is rounded to a double. -/
inductive Spelled where
  | notANumber
  | infinity (negative : Bool)
  | decimal (negative : Bool) (magnitude : Scaled)
deriving DecidableEq

/-- The greatest number of digits of a whole number that is read: what the environment is set to
unless it is told otherwise. -/
def digitLimit : Nat := 4300

/-- Why no whole number is read. -/
inductive Unread where
  | malformed
  /-- A whole number, or the front of something else, has more digits than are read. -/
  | tooManyDigits (count : Nat)
deriving DecidableEq

def tooManyDigitsText (count : Nat) : String :=
  "Exceeds the limit (" ++ toString digitLimit
    ++ " digits) for integer string conversion: value has " ++ toString count
    ++ " digits; use sys.set_int_max_str_digits() to increase the limit"

/-- The whole number that a text spells. Its digits are counted before anything is made of what
follows them. -/
def readInteger (text : List Char) : Except Unread Int :=
  let (negative, rest) :=
    splitSign ((strip (fun c => isOuterBlank c.toNat) text).map plainDigit)
  let (run, tail) := rest.span fun c => isDigit c || c = '_'
  let digits := joinDigits false run
  if digits.isEmpty || digits.contains '_' then .error .malformed
  else if digitLimit < digits.length then .error (.tooManyDigits digits.length)
  else if tail.isEmpty then
    let n : Int := ofDigits (digits.filterMap asciiDigit?)
    .ok (if negative then -n else n)
  else .error .malformed

/-- What a text says, in small or capital letters. -/
def spelled? (text : List Char) : Option Spelled :=
  let (negative, rest) := splitSign (prepared text)
  let word := String.ofList (rest.map Char.toLower)
  if word = "inf" ∨ word = "infinity" then some (.infinity negative)
  else if word = "nan" then some .notANumber
  else (decimal? rest).map (.decimal negative)

/-- The double nearest to what is spelled. -/
def Spelled.toDouble : Spelled → Float
  | .notANumber => Binary64.nan
  | .infinity negative => Binary64.infinite negative
  | .decimal negative d => Decimal.toDouble negative d.digits d.exponent

/-- The double nearest to the number that a text spells. -/
def readDouble? (text : List Char) : Option Float := (spelled? text).map Spelled.toDouble

end AntennaArray.Decimal
