import AntennaArray.Number.Binary64
import AntennaArray.Decimal.Text

/-!
# Numbers

A number is an integer of any size or a double, and keeps which of the two it is. Both are compared
by their exact values.
-/

namespace AntennaArray

inductive Number where
  | integer (n : Int)
  | double (x : Float)

namespace Number

/-- The nearest double, if there is one: a large integer has none. -/
def toDouble? : Number → Option Float
  | .integer n => let x := Binary64.ofInt n; if x.isInf then none else some x
  | .double x => some x

/-- The nearest double; infinite for a large integer. -/
def toDouble : Number → Float
  | .integer n => Binary64.ofInt n
  | .double x => x

/-- An integer in decimal, a double with the fewest digits that read back. -/
def text : Number → String
  | .integer n => toString n
  | .double x => Decimal.shortestText x

/-- Whether an integer is the exact value of a double. -/
def equalsDouble (n : Int) (x : Float) : Bool :=
  match Binary64.magnitude? x with
  | some (num, den) => n * den = if Binary64.isNegative x then -(num : Int) else num
  | none => false

/-- Whether two numbers have the same exact value; not a number is equal to nothing. -/
def equals : Number → Number → Bool
  | .integer a, .integer b => a == b
  | .double a, .double b => a == b
  | .integer a, .double b => equalsDouble a b
  | .double a, .integer b => equalsDouble b a

def truncate : Number → Int
  | .integer n => n
  | .double x => Binary64.truncate x

theorem equals_integer (a b : Int) : equals (.integer a) (.integer b) = true ↔ a = b := by
  simp [equals]

end Number

end AntennaArray
