import AntennaArray.Number.Elementary

/-!
# Scalars and levels

The radiation formulas are written once, over any type with arithmetic and the elementary functions:
doubles when the program runs, real numbers when it is reasoned about. A level in decibels is a type
of its own beside the scalars, since the level of no power is `-∞`, which real numbers lack.
-/

namespace AntennaArray

/-- Numbers with the elementary functions. -/
class Scalar (α : Type) extends Add α, Sub α, Mul α, Div α, Neg α where
  ofInt : Int → α
  pi : α
  sin : α → α
  cos : α → α
  asin : α → α
  acos : α → α
  /-- The angle of the point with the given ordinate and abscissa. -/
  atan2 : α → α → α
  sqrt : α → α
  hypot : α → α → α
  log10 : α → α
  pow : α → α → α
  /-- The remainder with the sign of the divisor. -/
  floorMod : α → α → α
  /-- The nearest integer, a half to the even one. -/
  nearest : α → Int
  lt : α → α → Bool
  le : α → α → Bool
  isNaN : α → Bool
  isFinite : α → Bool

namespace Scalar

variable {α : Type} [Scalar α]

def zero : α := ofInt 0

def one : α := ofInt 1

def square (x : α) : α := x * x

/-- The larger of two numbers; not a number if one of them is not. -/
def maximum (x y : α) : α := if isNaN x || le y x then x else y

/-- The smaller of two numbers; not a number if one of them is not. -/
def minimum (x y : α) : α := if isNaN x || le x y then x else y

/-- The nearest number between two bounds; what is not a number stays. -/
def clip (low high x : α) : α := if lt x low then low else if lt high x then high else x

def sum (xs : List α) : α := xs.foldl (· + ·) zero

end Scalar

/-- Levels in decibels over the scalars `α`. -/
class LevelScale (α : Type) (L : outParam Type) extends Add L where
  /-- The level that a number of decibels is. -/
  ofDecibels : α → L
  /-- `10 log₁₀` of a power. -/
  ofPower : α → L
  /-- `20 log₁₀` of an amplitude. -/
  ofAmplitude : α → L
  /-- The amplitude that has a level. -/
  amplitude : L → α

/-- Values among which there is a greatest one. -/
class Ranked (L : Type) where
  /-- Whether the second value replaces the first as the greatest one so far. -/
  exceeds : L → L → Bool

/-- Scalars are ranked by size; what is not a number counts as the greatest, the first time. -/
instance {α : Type} [Scalar α] : Ranked α where
  exceeds best x := !Scalar.isNaN best && (Scalar.isNaN x || Scalar.lt best x)

/-- Doubles round every operation. -/
instance : Scalar Float where
  ofInt := Binary64.ofInt
  pi := 3.141592653589793
  sin := Binary64.sin
  cos := Binary64.cos
  asin := Binary64.asin
  acos := Binary64.acos
  atan2 := Binary64.atan2
  sqrt := Float.sqrt
  hypot := Binary64.hypot
  log10 := Binary64.log10
  pow := Binary64.pow
  floorMod := Binary64.floorMod
  nearest := Binary64.nearest
  lt x y := decide (x < y)
  le x y := decide (x ≤ y)
  isNaN := Float.isNaN
  isFinite := Float.isFinite

/-- The level of a double is a double. -/
instance : LevelScale Float Float where
  ofDecibels x := x
  ofPower x := 10 * Binary64.log10 x
  ofAmplitude x := 20 * Binary64.log10 x
  amplitude x := Binary64.pow 10 (x / 20)

end AntennaArray
