import AntennaArray.Number.Rounding

/-!
# Doubles as scaled integers

A finite double is a natural number times a power of two, with a sign. `Binary64.ofFloat` reads
that form off the bits, and `Binary64.round` goes back: it gives the double nearest to any natural
number times any power of two, ties to even, with overflow to infinity and gradual underflow.
-/

namespace AntennaArray

-- powers are repeated products, whichever other powers are known
attribute [local instance (high)] instPowNat

/-- What the bits of a double stand for; a finite one is `± mantissa * 2 ^ exponent`. -/
inductive Binary64 where
  | notANumber
  | infinity (negative : Bool)
  | finite (negative : Bool) (mantissa : Nat) (exponent : Int)

namespace Binary64

/-- The fields of a double; a subnormal one and zero have the least exponent. -/
def ofFloat (x : Float) : Binary64 :=
  let bits := x.toBits
  let negative := bits >>> 63 == 1
  let field : Nat := (bits >>> 52 &&& 0x7FF).toNat
  let fraction : Nat := (bits &&& 0xFFFFFFFFFFFFF).toNat
  if field = 2047 then
    if fraction = 0 then .infinity negative else .notANumber
  else if field = 0 then .finite negative fraction (-1074)
  else .finite negative (2 ^ (52 : Nat) + fraction) ((field : Int) - 1075)

/-- The double with this sign and these lower 63 bits. -/
def assemble (negative : Bool) (bits : Nat) : Float :=
  Float.ofBits ((if negative then 0x8000000000000000 else 0) + UInt64.ofNat bits)

def nan : Float := Float.ofBits 0x7FF8000000000000

def infinite (negative : Bool) : Float := assemble negative (2047 * 2 ^ (52 : Nat))

def zero (negative : Bool) : Float := assemble negative 0

/-- The double nearest to `± mantissa * 2 ^ exponent`. Bits of consecutive doubles are consecutive
numbers, so a mantissa that rounds up to the next power of two carries into the exponent. -/
def round (negative : Bool) (mantissa : Nat) (exponent : Int) : Float :=
  if mantissa = 0 then zero negative
  else
    let target := max (mantissa.log2 + exponent - 52) (-1074)
    let kept :=
      if target ≤ exponent then mantissa * 2 ^ (exponent - target).toNat
      else halfEven mantissa (2 ^ (target - exponent).toNat)
    let bits := (target + 1074).toNat * 2 ^ (52 : Nat) + kept
    assemble negative (min bits (2047 * 2 ^ (52 : Nat)))

/-- The double nearest to `± num / den`: the quotient is taken to at least 64 bits, and a last bit
records whether something was cut off, so that the second rounding sees which side it is on. -/
def ofQuotient (negative : Bool) (num den : Nat) : Float :=
  if num = 0 then zero negative
  else
    let shift := den.log2 + 66 - num.log2
    let scaled := num * 2 ^ shift
    let sticky := if scaled % den = 0 then 0 else 1
    round negative (2 * (scaled / den) + sticky) (-(shift : Int) - 1)

/-- The double nearest to an integer; infinite from `2 ^ 1024 - 2 ^ 970` on. -/
def ofInt (n : Int) : Float := round (decide (n < 0)) n.natAbs 0

/-- The magnitude of a double as a quotient of natural numbers; `none` where it is not finite. -/
def magnitude? (x : Float) : Option (Nat × Nat) :=
  match ofFloat x with
  | .finite _ m e => some (if 0 ≤ e then (m * 2 ^ e.toNat, 1) else (m, 2 ^ (-e).toNat))
  | _ => none

def isNegative (x : Float) : Bool := x.toBits >>> 63 == 1

/-- The whole part of a finite double, towards zero; zero where there is none. -/
def truncate (x : Float) : Int :=
  match magnitude? x with
  | some (num, den) => if isNegative x then -((num / den : Nat) : Int) else (num / den : Nat)
  | none => 0

/-- The integer nearest to a finite double, a half to the even one; zero where there is none. -/
def nearest (x : Float) : Int :=
  match magnitude? x with
  | some (num, den) => if isNegative x then -(halfEven num den : Int) else halfEven num den
  | none => 0

end Binary64

end AntennaArray
