import AntennaArray.Number.Binary64
import AntennaArray.Number.FixedPoint

/-!
# Elementary functions on doubles

Each function treats the special cases of the binary64 standard (signed zeros, infinities, numbers
that are not a number) and then rounds one fixed-point evaluation. A tiny argument of a function
that is the identity to first order is its own nearest value.
-/

namespace AntennaArray.Binary64

-- powers are repeated products, whichever other powers are known
attribute [local instance (high)] instPowNat

open FixedPoint (unit precision)

def ofFixed (x : Int) : Float := round (decide (x < 0)) x.natAbs (-(precision : Int))

def withSign (negative : Bool) (x : Float) : Float := if negative then -x else x

/-- Whether `mantissa * 2 ^ exponent` is below `2 ^ -27`, where cubes are out of reach. -/
def isTiny (mantissa : Nat) (exponent : Int) : Bool :=
  mantissa = 0 || decide ((mantissa.log2 : Int) + exponent < -27)

/-! ## Trigonometry -/

/-- The sine; not a number at infinity. -/
def sin (x : Float) : Float :=
  match ofFloat x with
  | .finite negative m e =>
    if isTiny m e then x else withSign negative (ofFixed (FixedPoint.sin m e))
  | _ => nan

/-- The cosine; not a number at infinity. -/
def cos (x : Float) : Float :=
  match ofFloat x with
  | .finite _ m e => if isTiny m e then 1 else ofFixed (FixedPoint.cos m e)
  | _ => nan

/-- The arc sine; not a number outside `[-1, 1]`. -/
def asin (x : Float) : Float :=
  match ofFloat x with
  | .finite negative m e =>
    if x < -1 || 1 < x then nan
    else if isTiny m e then x
    else
      let opposite := FixedPoint.scale m (e + precision)
      withSign negative (ofFixed (FixedPoint.arctan opposite.toNat (FixedPoint.cathetus opposite)))
  | _ => nan

/-- The arc cosine; not a number outside `[-1, 1]`. -/
def acos (x : Float) : Float :=
  match ofFloat x with
  | .finite negative m e =>
    if x < -1 || 1 < x then nan
    else
      let adjacent := FixedPoint.scale m (e + precision)
      let angle := FixedPoint.arctan (FixedPoint.cathetus adjacent) adjacent.toNat
      ofFixed (if negative then FixedPoint.pi - angle else angle)
  | _ => nan

/-- The angle, in the upper half plane, of a point with the given sizes of its coordinates; on the
side of negative abscissas if `left`. Up to `2 ^ -60` the angle is the ratio itself. -/
def halfPlaneAngle (left : Bool) (opposite adjacent : Nat) : Float :=
  if left then ofFixed (FixedPoint.pi - FixedPoint.arctan opposite adjacent)
  else if opposite * 2 ^ (60 : Nat) ≤ adjacent then ofQuotient false opposite adjacent
  else ofFixed (FixedPoint.arctan opposite adjacent)

/-- The angle of the point with ordinate `y` and abscissa `x`, in `[-π, π]`; a zero counts as the
limit from the side of its sign. -/
def atan2 (y x : Float) : Float :=
  match ofFloat y, ofFloat x with
  | .notANumber, _ => nan
  | _, .notANumber => nan
  | .infinity up, .infinity left => withSign up (halfPlaneAngle left 1 1)
  | .infinity up, .finite .. => withSign up (halfPlaneAngle false 1 0)
  | .finite up _ _, .infinity left => withSign up (if left then ofFixed FixedPoint.pi else 0)
  | .finite up m e, .finite left n f =>
    if m = 0 then withSign up (if left then ofFixed FixedPoint.pi else 0)
    else
      let least := min e f
      withSign up (halfPlaneAngle left (m * 2 ^ (e - least).toNat) (n * 2 ^ (f - least).toNat))

/-! ## Logarithms and powers -/

/-- The logarithm to base ten; `-∞` at zero, not a number below. -/
def log10 (x : Float) : Float :=
  match ofFloat x with
  | .notANumber => nan
  | .infinity negative => if negative then nan else x
  | .finite negative m e =>
    if m = 0 then infinite true
    else if negative then nan
    else ofFixed (FixedPoint.log m e * unit / FixedPoint.logTen)

/-- `e ^ t` for a fixed-point exponent `t`; beyond `± 800` the result is infinite or zero. -/
def expOf (t : Int) : Float :=
  if 800 * unit ≤ t then infinite false
  else if t ≤ -800 * unit then 0
  else
    let turns := t / FixedPoint.logTwo
    round false (FixedPoint.exp (t - turns * FixedPoint.logTwo)).toNat (turns - precision)

/-- Whether `mantissa * 2 ^ exponent` is a whole number, and whether it is an odd one. -/
def wholeAndOdd (mantissa : Nat) (exponent : Int) : Bool × Bool :=
  if 0 ≤ exponent then (true, decide (exponent = 0) && mantissa % 2 = 1)
  else
    let den := 2 ^ (-exponent).toNat
    (mantissa % den = 0, mantissa / den % 2 = 1)

/-- A positive finite number other than one, raised to `± n * 2 ^ f`. -/
def powPositive (m : Nat) (e : Int) (negative : Bool) (n : Nat) (f : Int) : Float :=
  let base := FixedPoint.log m e
  let product := if negative then -(base * n) else base * n
  -- from `f = 64` on the product is far outside the range, whatever its size
  expOf (FixedPoint.scale product (min f 64))

/-- The power `x ^ y`: one if `y` is zero or `x` is one, whatever the other is; a negative base has
whole powers only. -/
def pow (x y : Float) : Float :=
  match ofFloat x, ofFloat y with
  | _, .finite _ 0 _ => 1
  | .notANumber, _ => nan
  | _, .notANumber => if x == 1 then 1 else nan
  | .infinity false, .infinity down => if down then 0 else x
  | .infinity true, .infinity down => if down then 0 else infinite false
  | .finite .., .infinity down =>
    let size := x.abs
    if size == 1 then 1 else if decide (size < 1) = down then infinite false else 0
  | .infinity negative, .finite down n f =>
    let minus := negative && (wholeAndOdd n f).2 && (wholeAndOdd n f).1
    withSign minus (if down then 0 else infinite false)
  | .finite negative m e, .finite down n f =>
    let (whole, odd) := wholeAndOdd n f
    let minus := negative && whole && odd
    if m = 0 then withSign minus (if down then infinite false else 0)
    else if x == 1 then 1
    else if negative && !whole then nan
    else if x == -1 then withSign minus 1
    else withSign minus (powPositive m e down n f)

/-! ## Exact operations -/

/-- The length of the hypotenuse, rounded once from `√(x² + y²)`; infinite if either side is. -/
def hypot (x y : Float) : Float :=
  match ofFloat x, ofFloat y with
  | .infinity _, _ => infinite false
  | _, .infinity _ => infinite false
  | .notANumber, _ => nan
  | _, .notANumber => nan
  | .finite _ m e, .finite _ n f =>
    let least := min e f
    let square := (m * 2 ^ (e - least).toNat) ^ (2 : Nat) + (n * 2 ^ (f - least).toNat) ^ (2 : Nat)
    -- 70 more bits of the root, and one that tells whether it is exact
    let root := Nat.sqrt (square * 2 ^ (140 : Nat))
    let sticky := if root * root = square * 2 ^ (140 : Nat) then 0 else 1
    round false (2 * root + sticky) (least - 71)

/-- The remainder of the division of `x` by `y` rounded towards zero; exact. -/
def remainder (x y : Float) : Float :=
  match ofFloat x, ofFloat y with
  | .finite negative m e, .finite _ n f =>
    if n = 0 then nan
    else
      let least := min e f
      let rest := (m * 2 ^ (e - least).toNat) % (n * 2 ^ (f - least).toNat)
      round negative rest least
  | .finite .., .infinity _ => x
  | _, _ => nan

/-- The remainder of the division of `x` by `y` rounded down: it has the sign of `y`. -/
def floorMod (x y : Float) : Float :=
  let rest := remainder x y
  if rest == 0 then withSign (isNegative y) 0
  else if (decide (y < 0)) != (decide (rest < 0)) then rest + y
  else rest

end AntennaArray.Binary64
