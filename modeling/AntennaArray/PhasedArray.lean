import AntennaArray.Element.Radiator
import AntennaArray.Phasor
import AntennaArray.Placement

/-!
# Phased arrays

An array of equal elements at given places. The steering vector of a direction holds the phase of a
plane wave at each place; its conjugate with norm one are the weights that point the array there.
The field of an element is its amplitude in its own frame, split into the two polarizations of
space.
-/

namespace AntennaArray

open Scalar

variable {α L : Type} [Scalar α] [LevelScale α L]

/-- Equal elements at given places. -/
structure PhasedArray (α : Type) where
  placement : Placement α
  radiator : Radiator α

/-- The components of a field along azimuth and inclination. -/
structure Field (α : Type) where
  phi : α
  theta : α

namespace PhasedArray

/-- The array with an element at each place of a placement. -/
def of (p : Placement α) (e : Element α) : PhasedArray α := ⟨p, e.radiator⟩

def size (a : PhasedArray α) : Nat := a.placement.size

def points (a : PhasedArray α) : List (Point α) := a.placement.toPoints

def rotation (a : PhasedArray α) : Rotation α := a.placement.rotation

@[simp] theorem size_of (p : Placement α) (e : Element α) : (of p e).size = p.size := rfl

@[simp] theorem length_points (a : PhasedArray α) : a.points.length = a.size := by
  simp [points, size]

/-- The phases at some points of a plane wave that comes along a unit vector, as phasors of length
one. -/
def front (points : List (Point α)) (u : Point α) : List (Phasor α) :=
  let rate := -(ofInt 2 * pi)
  points.map fun p => .cis (rate * p.dot u)

/-- The phases of a plane wave from a direction at some points. -/
def wave (points : List (Point α)) (d : Direction α) : List (Phasor α) := front points d.vector

/-- The phases of a plane wave at all places. -/
def steering (a : PhasedArray α) (d : Direction α) : List (Phasor α) := wave a.points d

/-- The weights of norm one that point the array in a direction. -/
def beam (a : PhasedArray α) (d : Direction α) : List (Phasor α) :=
  Phasor.normalize ((a.steering d).map Phasor.conj)

/-- Given weights, if there is one for each element. -/
def weights (a : PhasedArray α) (ws : List (Phasor α)) : Attempt (List (Phasor α)) :=
  if ws.length = a.size then .ok ws else refuse (.wrongLength ws.length a.size)

/-- The field of one element in a direction of space. -/
def field (a : PhasedArray α) (d : Direction α) : Field α :=
  let amplitude := LevelScale.amplitude (a.radiator.gain (a.rotation.toLocal d) : L)
  let ψ := a.rotation.polarizationAngle d
  ⟨sin ψ * amplitude, cos ψ * amplitude⟩

/-- The fields of one element in all directions of space. -/
def fields (a : PhasedArray α) (θ φ : Tensor α) : Attempt (Tensor (Field α)) := do
  let (inclinations, azimuths) ← a.rotation.toLocals θ φ
  let levels : Tensor L ← a.radiator.gains inclinations azimuths
  let amplitudes := levels.map LevelScale.amplitude
  let ψ ← a.rotation.polarizationAngles θ φ
  let along ← Tensor.combine (· * ·) (ψ.map cos) amplitudes
  let across ← Tensor.combine (· * ·) (ψ.map sin) amplitudes
  Tensor.combine Field.mk across along

/-- The field of one element towards an aim at one direction, whose angles are taken as tables of
one row. -/
def fieldTowards (a : PhasedArray α) (aim : Aim α) : Attempt (Field α) := do
  let (θ, φ) ← aim.pair
  let fields ← a.fields (← θ.onlyRow) (← φ.onlyRow)
  match fields.axes, fields.toList with
  | [_], [f] => return f
  | _, _ => throw .notSingle

@[simp] theorem length_steering (a : PhasedArray α) (d : Direction α) :
    (a.steering d).length = a.size := by
  simp [steering, wave, front]

@[simp] theorem length_beam (a : PhasedArray α) (d : Direction α) :
    (a.beam d).length = a.size := by
  simp [beam]

omit [Scalar α] in
/-- Weights that are accepted are the given ones. -/
theorem weights_eq_ok {a : PhasedArray α} {ws vs : List (Phasor α)} :
    a.weights ws = .ok vs ↔ ws.length = a.size ∧ vs = ws := by
  unfold weights refuse
  split <;> simp_all [eq_comm]

/-- The steering vectors of corresponding inclinations and azimuths, as rows of a table. -/
def steeringRows (a : PhasedArray α) (θ φ : List α) : Attempt (List (List (Phasor α))) :=
  if θ.length = φ.length then do
    let vectors ← overVectors (.ofList θ) (.ofList φ)
    let points := a.points
    return vectors.toList.map (front points)
  else reject .angleCounts

end PhasedArray

end AntennaArray
