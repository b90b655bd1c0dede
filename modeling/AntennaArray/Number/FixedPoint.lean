/-!
# Elementary functions on fixed-point numbers

A real number `x` is held as the integer `x * unit`, rounded down, with `unit = 2 ^ 128`. Square
roots, trigonometric functions, logarithms and powers are evaluated here in exact integer
arithmetic, by series whose terms shrink quickly; all results are good to far more digits than a
double holds, so one final rounding gives the nearest double.
-/

namespace AntennaArray.FixedPoint

-- powers are repeated products, whichever other powers are known
attribute [local instance (high)] instPowNat

/-- The number of fraction bits. -/
def precision : Nat := 128

/-- The number one. -/
def unit : Int := 2 ^ precision

/-- `mantissa * 2 ^ exponent`, rounded down to an integer. -/
def scale (mantissa : Int) (exponent : Int) : Int :=
  if 0 ≤ exponent then mantissa <<< exponent.toNat else mantissa >>> (-exponent).toNat

def mul (x y : Int) : Int := (x * y) >>> precision

/-! ## Constants -/

/-- `base * ∑ (-1)^k / ((2k+1) * n^(2k+1))` over the terms that `fuel` reaches, that is
`base * arctan (1/n)`. The `k`-th call holds `base / n^(2k+1)` in `power`. -/
def arctanInverse (n : Int) : Nat → Int → Int → Int
  | 0, _, _ => 0
  | fuel + 1, odd, power => power / odd - arctanInverse n fuel (odd + 2) (power / (n * n))

/-- The number of fraction bits of the stored circle constant: enough to reduce the largest
double modulo a quarter turn. -/
def circlePrecision : Nat := precision + 1152

/-- `π * 2 ^ circlePrecision`, from `π = 16 arctan (1/5) - 4 arctan (1/239)`. -/
def circle : Int :=
  let one : Int := 2 ^ (circlePrecision + 32)
  (16 * arctanInverse 5 300 1 (one / 5) - 4 * arctanInverse 239 90 1 (one / 239)) >>> (32 : Nat)

def pi : Int := scale circle ((precision : Int) - circlePrecision)

/-- `1/k + z/(k+2) + z²/(k+4) + …` to `fuel` terms. -/
def oddReciprocals (z : Int) : Nat → Int → Int
  | 0, _ => 0
  | fuel + 1, k => unit / k + mul z (oddReciprocals z fuel (k + 2))

/-- The logarithm of a positive `num / den` between `1/2` and `2`, as `2 artanh ((n-d)/(n+d))`. -/
def logNearOne (num den : Int) : Int :=
  let z := (num - den) * unit / (num + den)
  2 * mul z (oddReciprocals (mul z z) 28 1)

def logTwo : Int := logNearOne 2 1

/-- `log 10 = 3 log 2 + log (5/4)`. -/
def logTen : Int := 3 * logTwo + logNearOne 5 4

/-! ## Functions -/

/-- `log (mantissa * 2 ^ exponent)` for a positive mantissa. -/
def log (mantissa : Nat) (exponent : Int) : Int :=
  let bits := mantissa.log2
  -- the mantissa lies between `2 ^ bits` and `2 ^ (bits + 1)`; take the nearer power of two
  let bits := if 2 ^ (2 * bits + 1) ≤ mantissa * mantissa then bits + 1 else bits
  logNearOne mantissa (2 ^ bits) + (bits + exponent) * logTwo

/-- `1 + x/k (1 + x/(k+1) (1 + …))` to `fuel` terms. -/
def expSeries (x : Int) : Nat → Int → Int
  | 0, _ => unit
  | fuel + 1, k => unit + mul x (expSeries x fuel (k + 1)) / k

/-- `exp x` for `x` between `0` and `1`. -/
def exp (x : Int) : Int := expSeries x 35 1

/-- `1 / n!` for so many natural numbers, every second one from `n` on; `inverse` is that for the
first of them. -/
def inverseFactorials : Nat → Nat → Nat → List Nat
  | 0, _, _ => []
  | count + 1, n, inverse =>
    inverse :: inverseFactorials count (n + 2) (inverse / ((n + 1) * (n + 2)))

/-- The sizes of the coefficients of the sine. -/
def sineCoefficients : List Nat := inverseFactorials 13 1 (2 ^ precision)

/-- The sizes of the coefficients of the cosine. -/
def cosineCoefficients : List Nat := inverseFactorials 13 0 (2 ^ precision)

/-- `c₀ - z (c₁ - z (c₂ - …))`. -/
def alternating (z : Nat) : List Nat → Nat
  | [] => 0
  | c :: rest => c - (z * alternating z rest) >>> precision

def square (x : Int) : Nat := (x.natAbs * x.natAbs) >>> precision

/-- `sin x` for `|x|` at most an eighth of a turn. -/
def sinSmall (x : Int) : Int := mul x (alternating (square x) sineCoefficients)

/-- `cos x` for `|x|` at most an eighth of a turn. -/
def cosSmall (x : Int) : Int := alternating (square x) cosineCoefficients

/-- A quarter turn with so many more fraction bits. -/
def quarterTurn (extra : Int) : Int := scale circle (precision + extra - circlePrecision - 1)

/-- How many more fraction bits an angle without bits before the point has. -/
def guardBits : Int := 128

/-- A quarter turn with the guard bits. -/
def guardedQuarterTurn : Int := quarterTurn guardBits

/-- The number of quarter turns nearest to `mantissa * 2 ^ exponent`, and what is left over. The
circle constant is used to as many more bits as the angle has before the point. -/
def quarterTurns (mantissa : Nat) (exponent : Int) : Int × Int :=
  let extra := guardBits + max 0 exponent
  let quarter := if 0 < exponent then quarterTurn extra else guardedQuarterTurn
  let angle := scale mantissa (exponent + precision + extra)
  let turns := (2 * angle + quarter) / (2 * quarter)
  (turns, scale (angle - turns * quarter) (-extra))

/-- `sin x` for `x = mantissa * 2 ^ exponent`. -/
def sin (mantissa : Nat) (exponent : Int) : Int :=
  let (turns, rest) := quarterTurns mantissa exponent
  match turns % 4 with
  | 0 => sinSmall rest
  | 1 => cosSmall rest
  | 2 => -sinSmall rest
  | _ => -cosSmall rest

/-- `cos x` for `x = mantissa * 2 ^ exponent`. -/
def cos (mantissa : Nat) (exponent : Int) : Int :=
  let (turns, rest) := quarterTurns mantissa exponent
  match turns % 4 with
  | 0 => cosSmall rest
  | 1 => -sinSmall rest
  | 2 => -cosSmall rest
  | _ => sinSmall rest

/-- `sqrt x` for `x` not negative. -/
def sqrt (x : Int) : Int := Nat.sqrt (x * unit).toNat

/-- The tangent of half the angle whose tangent is `t`, for `t` not negative. -/
def halfTangent (t : Int) : Int := t * unit / (unit + sqrt (unit + mul t t))

/-- `1 - z/3 + z²/5 - …` to `fuel` terms. -/
def alternatingReciprocals (z : Int) : Nat → Int → Int
  | 0, _ => 0
  | fuel + 1, k => unit / k - mul z (alternatingReciprocals z fuel (k + 2))

/-- `arctan t` for `t` between `0` and `1`: the angle is halved three times, and the tangent is then
below a tenth. -/
def arctanUnit (t : Int) : Int :=
  let u := halfTangent (halfTangent (halfTangent t))
  8 * mul u (alternatingReciprocals (mul u u) 22 1)

/-- `arctan (num / den)`, for natural numbers that are not both zero. -/
def arctan (num den : Nat) : Int :=
  if num ≤ den then arctanUnit (num * unit / den)
  else (pi >>> (1 : Nat)) - arctanUnit (den * unit / num)

/-- `sqrt (1 - x²)`, for `|x|` at most one. -/
def cathetus (x : Int) : Nat := Nat.sqrt (unit * unit - x * x).toNat

end AntennaArray.FixedPoint
