import AntennaArray.Scalar

/-!
# Phasors

A phasor is a complex amplitude. Its operations are the plain formulas on real and imaginary parts,
over any scalars.
-/

namespace AntennaArray

open Scalar

/-- A complex amplitude. -/
structure Phasor (α : Type) where
  re : α
  im : α

namespace Phasor

variable {α : Type} [Scalar α]

/-- The phasor of length one at an angle. -/
def cis (angle : α) : Phasor α := ⟨cos angle, sin angle⟩

def add (a b : Phasor α) : Phasor α := ⟨a.re + b.re, a.im + b.im⟩

def mul (a b : Phasor α) : Phasor α := ⟨a.re * b.re - a.im * b.im, a.re * b.im + a.im * b.re⟩

def conj (a : Phasor α) : Phasor α := ⟨a.re, -a.im⟩

def abs (a : Phasor α) : α := hypot a.re a.im

/-- The quotient of a phasor and a real number, as by a phasor whose imaginary part is zero: a part
that is infinite leaves nothing of either part when the number is infinite too. -/
def shrink (a : Phasor α) (x : α) : Phasor α :=
  if le x zero && le zero x then ⟨a.re / x, a.im / x⟩
  else
    let ratio := zero / x
    let scale := one / (x + zero * ratio)
    ⟨(a.re + a.im * ratio) * scale, (a.im - a.re * ratio) * scale⟩

def sum (xs : List (Phasor α)) : Phasor α := xs.foldl add ⟨zero, zero⟩

/-- The sum of the products of corresponding entries. -/
def inner (xs ys : List (Phasor α)) : Phasor α := sum (xs.zipWith mul ys)

def norm (xs : List (Phasor α)) : α := sqrt (Scalar.sum (xs.map fun x => square x.abs))

/-- A vector divided by its norm. -/
def normalize (xs : List (Phasor α)) : List (Phasor α) :=
  let n := norm xs
  xs.map (·.shrink n)

@[simp] theorem length_normalize (xs : List (Phasor α)) : (normalize xs).length = xs.length := by
  simp [normalize]

end Phasor

end AntennaArray
