import AntennaArray.Aim
import AntennaArray.Element.Basic

/-!
# Gain of an element

A radiator is an element with its parameters converted once: exponents of the cosines, orientation
in radians. `Radiator.gain` is its gain in decibels in a direction of its own frame; azimuths are
taken relative to the orientation, and then both angles are brought into their ranges.
-/

namespace AntennaArray

open Scalar

/-- An element prepared for evaluation. -/
inductive Radiator (α : Type) where
  | isotropic
  /-- Two exponents, an orientation in radians and a greatest gain. -/
  | cosine (horizontal vertical orientation maxGain : α)
  /-- A parabolic pattern with its orientation in radians. -/
  | parabolic (p : ParabolicPattern α)

variable {α : Type} [Scalar α]

namespace Beamwidth

/-- The level, as `20 log₁₀` of an amplitude, of a plain cosine at half the beamwidth. -/
def edgeLevel (degrees : α) : α := ofInt 20 * log10 (cos (Angle.toRadians degrees / ofInt 4))

/-- The exponent for which the power is halved at half the beamwidth; zero without a limit. -/
def exponent : Beamwidth α → α
  | .unlimited => zero
  | .degrees w => ofInt (-3) / edgeLevel w

/-- Whether no exponent exists, since the plain cosine does not fall off. -/
def isDegenerate : Beamwidth α → Bool
  | .unlimited => false
  | .degrees w => le (edgeLevel w) zero && le zero (edgeLevel w)

end Beamwidth

/-- The sector pattern as a parabolic one that looks along the horizontal axis. -/
def SectorPattern.toParabolic (p : SectorPattern α) : ParabolicPattern α :=
  ⟨p.horizontal, p.vertical, p.maxAttenuation, p.sideLobeAttenuation, p.maxGain, zero⟩

/-- The element prepared for evaluation. -/
def Element.radiator : Element α → Radiator α
  | .isotropic => .isotropic
  | .cosine p => .cosine p.horizontal.exponent p.vertical.exponent
      (Angle.toRadians p.orientation) p.maxGain
  | .parabolic p => .parabolic { p with orientation := Angle.toRadians p.orientation }
  | .sector p => .parabolic p.toParabolic

namespace Radiator

/-- The direction relative to an orientation, with both angles in their ranges. -/
def relative (orientation : α) (d : Direction α) : Direction α :=
  Direction.normalized ⟨d.theta, d.phi - orientation⟩

/-- The attenuation along one parabola down to its floor. -/
def attenuation (floor width angle : α) : α :=
  -minimum floor (ofInt 12 * square (angle / width))

def parabolicGain (p : ParabolicPattern α) (d : Direction α) : α :=
  let d := relative p.orientation d
  let vertical :=
    attenuation p.sideLobeAttenuation p.vertical (Angle.toDegrees d.theta - ofInt 90)
  let horizontal := attenuation p.maxAttenuation p.horizontal (Angle.toDegrees d.phi)
  p.maxGain - minimum p.maxAttenuation (-(vertical + horizontal))

/-- The amplitude of a cosine pattern whose greatest amplitude is one. -/
def cosineAmplitude (horizontal vertical orientation : α) (d : Direction α) : α :=
  let d := relative orientation d
  pow (cos (d.phi / ofInt 2)) horizontal
    * pow (cos ((d.theta - pi / ofInt 2) / ofInt 2)) vertical

/-- The greatest number of axes over which an isotropic element repeats its gain. -/
def repetitionLimit : Nat := 32

/-- Refuses more axes than an element goes over. -/
def screenRank (r : Radiator α) (rank : Nat) : Attempt Unit :=
  match r with
  | .isotropic =>
    if rank ≤ repetitionLimit then .ok () else .error (.tooManyAxes repetitionLimit rank)
  | _ => .ok ()

variable {L : Type} [LevelScale α L]

/-- The gain in a direction of the element's own frame. -/
def gain (r : Radiator α) (d : Direction α) : L :=
  match r with
  | .isotropic => LevelScale.ofDecibels (zero : α)
  | .cosine h v o g => LevelScale.ofAmplitude (cosineAmplitude h v o d) + LevelScale.ofDecibels g
  | .parabolic p => LevelScale.ofDecibels (parabolicGain p d)

/-- The gains in all directions, where each factor or summand depends on one angle alone. -/
def spread (r : Radiator α) (θ φ : Tensor α) : Attempt (Tensor L) :=
  match r with
  | .isotropic => Tensor.combine (fun _ _ => LevelScale.ofDecibels (zero : α)) θ φ
  | .cosine h v o g => do
    let inclinations := θ.map Angle.clamp
    let azimuths := φ.map fun p => Angle.wrap (p - o)
    let amplitudes ← Tensor.combine (· * ·) (azimuths.map fun p => pow (cos (p / ofInt 2)) h)
      (inclinations.map fun t => pow (cos ((t - pi / ofInt 2) / ofInt 2)) v)
    return amplitudes.map fun x => LevelScale.ofAmplitude x + LevelScale.ofDecibels g
  | .parabolic p => do
    let inclinations := θ.map Angle.clamp
    let azimuths := φ.map fun x => Angle.wrap (x - p.orientation)
    let vertical := (inclinations.map Angle.toDegrees).map fun x =>
      attenuation p.sideLobeAttenuation p.vertical (x - ofInt 90)
    let horizontal := (azimuths.map Angle.toDegrees).map fun x =>
      attenuation p.maxAttenuation p.horizontal x
    let sums ← Tensor.combine (· + ·) vertical horizontal
    return sums.map fun x =>
      LevelScale.ofDecibels (p.maxGain - minimum p.maxAttenuation (-x))

/-- The gains in all directions of the element's own frame. -/
def gains (r : Radiator α) (θ φ : Tensor α) : Attempt (Tensor L) := do
  r.screenRank θ.rank
  r.screenRank φ.rank
  r.spread θ φ

end Radiator

end AntennaArray
