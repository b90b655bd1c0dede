import AntennaArray.Decimal.Text
import AntennaArray.Scalar

/-!
# Angles and directions

An inclination is measured from the vertical axis and lies in `[0, π]`; an azimuth is measured
around it and lies in `(-π, π]`. An inclination outside its range is clamped, an azimuth wraps.
-/

namespace AntennaArray

open Scalar

variable {α : Type} [Scalar α]

namespace Angle

def toRadians (x : α) : α := x * (pi / ofInt 180)

def toDegrees (x : α) : α := x * (ofInt 180 / pi)

/-- A full turn. -/
def turn : α := ofInt 2 * pi

/-- Whether an azimuth lies in `(-π, π]`. -/
def isWrapped (φ : α) : Bool := lt (-pi) φ && le φ pi

/-- The azimuth modulo a full turn; one in its range is left alone, so wrapping twice is exactly
wrapping once. -/
def wrap (φ : α) : α :=
  if isWrapped φ then φ
  else
    let wrapped := pi - floorMod (pi - φ) turn
    if le wrapped (-pi) then pi else wrapped

/-- The inclination in its range that is nearest. -/
def clamp (θ : α) : α := clip zero pi θ

/-- An azimuth in its range stays. -/
theorem wrap_of_isWrapped {φ : α} (h : isWrapped φ = true) : wrap φ = φ := by
  simp [wrap, h]

end Angle

/-- A point or a vector in space. -/
structure Point (α : Type) where
  x : α
  y : α
  z : α

namespace Point

def dot (p q : Point α) : α := p.x * q.x + p.y * q.y + p.z * q.z

def toList (p : Point α) : List α := [p.x, p.y, p.z]

/-- The unit vector with an inclination and an azimuth. -/
def ofAngles (θ φ : α) : Point α :=
  let s := sin θ
  ⟨s * cos φ, s * sin φ, cos θ * one⟩

end Point

/-- A direction: inclination and azimuth, in radians. -/
structure Direction (α : Type) where
  theta : α
  phi : α

namespace Direction

def ofDegrees (θ φ : α) : Direction α := ⟨Angle.toRadians θ, Angle.toRadians φ⟩

/-- The same direction with both angles in their ranges. -/
def normalized (d : Direction α) : Direction α := ⟨Angle.clamp d.theta, Angle.wrap d.phi⟩

def degrees (d : Direction α) : α × α := (Angle.toDegrees d.theta, Angle.toDegrees d.phi)

/-- The display of a direction: both angles in degrees, with two places. -/
def display (d : Direction Float) : String :=
  let (θ, φ) := d.degrees
  "(theta=" ++ Decimal.fixed 2 θ ++ " deg, phi=" ++ Decimal.fixed 2 φ ++ " deg)"

/-- The unit vector in a direction. -/
def vector (d : Direction α) : Point α := Point.ofAngles d.theta d.phi

end Direction

end AntennaArray
