import AntennaArray.Number.Binary64

/-!
# Decimal digits of exact quotients

A positive quotient `num / den` of natural numbers is written with a given number of significant
digits (`significant`), or, if it is the value of a double, with the fewest digits that read back
as that double (`shortest`). All arithmetic is exact, and a half goes to the even neighbour.
-/

namespace AntennaArray.Decimal

-- powers are repeated products, whichever other powers are known
attribute [local instance (high)] instPowNat

/-- A decimal: `digits * 10 ^ exponent`. -/
structure Scaled where
  digits : Nat
  exponent : Int
deriving DecidableEq

namespace Scaled

def text (d : Scaled) : List Char := (toString d.digits).toList

/-- The power of ten of the leading digit. -/
def decade (d : Scaled) : Int := d.exponent + (d.text.length - 1)

/-- The same number without trailing zeros; `fuel` bounds their number. -/
def trim : Nat → Scaled → Scaled
  | 0, d => d
  | fuel + 1, d =>
    if d.digits ≠ 0 ∧ d.digits % 10 = 0 then trim fuel ⟨d.digits / 10, d.exponent + 1⟩ else d

end Scaled

/-- Whether `10 ^ k ≤ num / den`. -/
def tenPowLe (num den : Nat) (k : Int) : Bool :=
  if 0 ≤ k then den * 10 ^ k.toNat ≤ num else den ≤ num * 10 ^ (-k).toNat

/-- The first of `k`, `k + 1`, … whose successor is no lower bound any more. -/
def climb (num den : Nat) : Nat → Int → Int
  | 0, k => k
  | fuel + 1, k => if tenPowLe num den (k + 1) then climb num den fuel (k + 1) else k

/-- The greatest `k` with `10 ^ k ≤ num / den`: the number of binary digits gives it up to two. -/
def decade (num den : Nat) : Int :=
  climb num den 4 (((num.log2 : Int) - den.log2 - 1) * 30103 / 100000 - 1)

/-- `num / den * 10 ^ (-k)` as a quotient. -/
def shift (num den : Nat) (k : Int) : Nat × Nat :=
  if 0 ≤ k then (num, den * 10 ^ k.toNat) else (num * 10 ^ (-k).toNat, den)

/-- `num / den` rounded to `count` significant digits. -/
def significant (count num den : Nat) : Scaled :=
  let exponent := decade num den + 1 - count
  let (n, d) := shift num den exponent
  let digits := halfEven n d
  if digits = 10 ^ count then ⟨digits / 10, exponent + 1⟩ else ⟨digits, exponent⟩

/-! ## The fewest digits that read back -/

/-- The numbers that round to the double `mantissa * 2 ^ exponent`, in quarters of its last place:
the ends belong to it iff the mantissa is even, and below a power of two the doubles lie closer. -/
structure Neighbourhood where
  low : Nat
  value : Nat
  high : Nat
  closed : Bool

/-- The neighbourhood of `mantissa * 2 ^ exponent`. -/
def Neighbourhood.of (mantissa : Nat) (exponent : Int) : Neighbourhood where
  low := 4 * mantissa - if mantissa = 2 ^ (52 : Nat) ∧ -1074 < exponent then 1 else 2
  value := 4 * mantissa
  high := 4 * mantissa + 2
  closed := mantissa % 2 = 0

/-- Whether `d * a / b` lies in the neighbourhood. -/
def Neighbourhood.holds (h : Neighbourhood) (a b d : Nat) : Bool :=
  if h.closed then h.low * b ≤ d * a && d * a ≤ h.high * b
  else h.low * b < d * a && d * a < h.high * b

/-- The multiple of `10 ^ k` in the neighbourhood, the nearer one if there are two: only the two
neighbours of the value on that grid can be. -/
def Neighbourhood.multiple? (h : Neighbourhood) (exponent k : Int) : Option Nat :=
  let a := 10 ^ k.toNat * 2 ^ (2 - exponent).toNat
  let b := 10 ^ (-k).toNat * 2 ^ (exponent - 2).toNat
  let below := h.value * b / a
  if h.holds a b below then
    if h.holds a b (below + 1) then some (halfEven (h.value * b) a) else some below
  else if h.holds a b (below + 1) then some (below + 1)
  else none

/-- The first grid from `10 ^ k` downwards with a hit. -/
def Neighbourhood.search (h : Neighbourhood) (exponent : Int) : Nat → Int → Scaled
  | 0, k => ⟨(h.multiple? exponent k).getD 0, k⟩
  | fuel + 1, k =>
    match h.multiple? exponent k with
    | some d => ⟨d, k⟩
    | none => search h exponent fuel (k - 1)

/-- The decimal with the fewest digits that reads back as the double `mantissa * 2 ^ exponent`, and
of those the nearest; seventeen digits are always enough. -/
def shortest (mantissa : Nat) (exponent : Int) : Scaled :=
  let (num, den) :=
    if 0 ≤ exponent then (mantissa * 2 ^ exponent.toNat, 1) else (mantissa, 2 ^ (-exponent).toNat)
  ((Neighbourhood.of mantissa exponent).search exponent 17 (decade num den)).trim 400

end AntennaArray.Decimal
