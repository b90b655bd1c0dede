import AntennaArray.Broadcast

/-!
# Rotated frames

A panel is turned about the vertical axis by its bearing and then about its own horizontal axis by
its downtilt. `toLocal` gives a direction as the panel sees it, `polarizationAngle` the angle
between the polarization vectors of the two frames, and `toGlobal` carries a point of the panel
into space.
-/

namespace AntennaArray

open Scalar

variable {α : Type} [Scalar α]

/-- A bearing, and the cosine and the sine of a downtilt. -/
structure Rotation (α : Type) where
  bearing : α
  cosTilt : α
  sinTilt : α

namespace Rotation

def ofAngles (bearing downtilt : α) : Rotation α := ⟨bearing, cos downtilt, sin downtilt⟩

/-- The rotation, if the downtilt is no infinity. -/
def ofAngles? (bearing downtilt : Float) : Attempt (Rotation Float) :=
  if downtilt.isInf then reject .outsideDomain else .ok (ofAngles bearing downtilt)

/-- A direction in the frame of the panel. -/
def toLocal (r : Rotation α) (d : Direction α) : Direction α :=
  let azimuth := d.phi - r.bearing
  let (st, ct) := (sin d.theta, cos d.theta)
  let (sp, cp) := (sin azimuth, cos azimuth)
  -- rounding may carry the cosine past one
  let height := clip (-one) one (r.cosTilt * ct + r.sinTilt * cp * st)
  ⟨acos height, atan2 (sp * st) (r.cosTilt * st * cp - r.sinTilt * ct)⟩

/-- The angle from the polarization vector of the panel to that of space. -/
def polarizationAngle (r : Rotation α) (d : Direction α) : α :=
  let azimuth := d.phi - r.bearing
  atan2 (r.sinTilt * sin azimuth)
    (r.cosTilt * sin d.theta - r.sinTilt * cos d.theta * cos azimuth)

/-- The inclinations and the azimuths of all directions in the frame of the panel. -/
def toLocals (r : Rotation α) (θ φ : Tensor α) : Attempt (Tensor α × Tensor α) := do
  let azimuths := φ.map (· - r.bearing)
  let (st, ct) := (θ.map sin, θ.map cos)
  let (sp, cp) := (azimuths.map sin, azimuths.map cos)
  let heights ← Tensor.combine (· + ·) (ct.map (r.cosTilt * ·))
    (← Tensor.combine (· * ·) (cp.map (r.sinTilt * ·)) st)
  let ordinates ← Tensor.combine (· * ·) sp st
  let abscissas ← Tensor.combine (· - ·)
    (← Tensor.combine (· * ·) (st.map (r.cosTilt * ·)) cp) (ct.map (r.sinTilt * ·))
  let turned ← Tensor.combine atan2 ordinates abscissas
  return (heights.map fun height => acos (clip (-one) one height), turned)

/-- The angles between the polarization vectors in all directions. -/
def polarizationAngles (r : Rotation α) (θ φ : Tensor α) : Attempt (Tensor α) := do
  let azimuths := φ.map (· - r.bearing)
  let across ← Tensor.combine (· * ·) ((θ.map cos).map (r.sinTilt * ·)) (azimuths.map cos)
  let along ← Tensor.combine (· - ·) ((θ.map sin).map (r.cosTilt * ·)) across
  Tensor.combine atan2 ((azimuths.map sin).map (r.sinTilt * ·)) along

/-- The rows of a rotation matrix. -/
structure Matrix (α : Type) where
  first : Point α
  second : Point α
  third : Point α

def matrix (r : Rotation α) : Matrix α :=
  let (sa, ca) := (sin r.bearing, cos r.bearing)
  { first := ⟨ca * r.cosTilt, -sa, ca * r.sinTilt⟩
    second := ⟨sa * r.cosTilt, ca, sa * r.sinTilt⟩
    third := ⟨-r.sinTilt, zero, r.cosTilt⟩ }

def Matrix.apply (m : Matrix α) (p : Point α) : Point α :=
  ⟨p.dot m.first, p.dot m.second, p.dot m.third⟩

/-- A point of the panel in space. -/
def toGlobal (r : Rotation α) (p : Point α) : Point α := r.matrix.apply p

end Rotation

end AntennaArray
