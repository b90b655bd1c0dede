import AntennaArray.Decimal.Digits

/-!
# Doubles as decimal text

Four layouts: a fixed number of places after the point, scientific notation with a fixed number of
places, the shorter of the two for a number of significant digits, and the fewest digits that read
back. They share the signs, the spelling of what is not finite, and the form of an exponent.
-/

namespace AntennaArray.Decimal

-- powers are repeated products, whichever other powers are known
attribute [local instance (high)] instPowNat

def zeros (count : Nat) : List Char := List.replicate count '0'

/-- A natural number with at least `width` digits. -/
def padded (width n : Nat) : List Char :=
  let digits := (toString n).toList
  zeros (width - digits.length) ++ digits

/-- An exponent with its sign and at least two digits. -/
def exponentText (e : Int) : List Char :=
  'e' :: (if e < 0 then '-' else '+') :: padded 2 e.natAbs

/-- Digits with the point after the first `point` of them; zeros fill the gap to the point, and a
number without digits after the point has none. -/
def positional (digits : List Char) (point : Int) : List Char :=
  if point ≤ 0 then '0' :: '.' :: zeros (-point).toNat ++ digits
  else
    let whole := digits.take point.toNat ++ zeros (point.toNat - digits.length)
    match digits.drop point.toNat with
    | [] => whole
    | fraction => whole ++ '.' :: fraction

/-- Scientific notation: one digit, the others after a point. -/
def mantissaText (digits : List Char) (decade : Int) : List Char :=
  positional digits 1 ++ exponentText decade

/-- The common frame: sign, then the text of the magnitude of a finite number. -/
def frame (x : Float) (body : Nat → Int → List Char) : String :=
  let sign (negative : Bool) : List Char := if negative then ['-'] else []
  match Binary64.ofFloat x with
  | .notANumber => "nan"
  | .infinity negative => String.ofList (sign negative ++ "inf".toList)
  | .finite negative m e => String.ofList (sign negative ++ body m e)

/-- `mantissa * 2 ^ exponent` as a quotient. -/
def quotient (mantissa : Nat) (exponent : Int) : Nat × Nat :=
  if 0 ≤ exponent then (mantissa * 2 ^ exponent.toNat, 1) else (mantissa, 2 ^ (-exponent).toNat)

def fixed (places : Nat) (x : Float) : String :=
  frame x fun m e =>
    let (num, den) := quotient m e
    let digits := padded (places + 1) (halfEven (num * 10 ^ places) den)
    positional digits (digits.length - places)

/-- One digit before the point and `places` after it, with an exponent. -/
def scientific (places : Nat) (x : Float) : String :=
  frame x fun m e =>
    if m = 0 then mantissaText (zeros (places + 1)) 0
    else
      let (num, den) := quotient m e
      let d := significant (places + 1) num den
      mantissaText d.text d.decade

/-- The magnitude `mantissa * 2 ^ exponent` with at most `count` significant digits and no trailing
zeros: positional if the leading digit stands between the fourth place after the point and the
`count`-th place before it. -/
def significantText (count mantissa : Nat) (exponent : Int) : List Char :=
  if mantissa = 0 then ['0']
  else
    let (num, den) := quotient mantissa exponent
    let d := (significant count num den).trim count
    if -4 ≤ d.decade ∧ d.decade < count then positional d.text (d.decade + 1)
    else mantissaText d.text d.decade

/-- At most `count` significant digits. -/
def general (count : Nat) (x : Float) : String := frame x (significantText count)

/-- The fewest digits that read back as the same double: positional from `10 ^ (-4)` up to
`10 ^ 16`, and a whole number keeps one zero after the point. -/
def shortestText (x : Float) : String :=
  frame x fun m e =>
    if m = 0 then ['0', '.', '0']
    else
      let d := shortest m e
      if -4 ≤ d.decade ∧ d.decade < 16 then
        let text := positional d.text (d.decade + 1)
        if text.contains '.' then text else text ++ ['.', '0']
      else mantissaText d.text d.decade

end AntennaArray.Decimal
