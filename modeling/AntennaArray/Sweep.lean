import AntennaArray.Gain

/-!
# Sweeps over a grid

A grid runs over inclinations first and azimuths second, with all angles in their ranges. A sweep is
the gain at every point of a grid, one row for each azimuth; it is taken over the whole grid at once
(`PhasedArray.sweep`). Its peak is the first point with the greatest gain.
-/

namespace AntennaArray

open Scalar

variable {α L : Type} [Scalar α] [LevelScale α L]

/-- The directions of a grid, inclinations fastest. -/
def grid (θ φ : List α) : List (Direction α) :=
  φ.flatMap fun p => θ.map fun t => Direction.normalized ⟨t, p⟩

/-- The directions of a grid of finite angles. -/
def grid? (θ φ : List α) : Attempt (List (Direction α)) :=
  if θ.all isFinite && φ.all isFinite then .ok (grid θ φ) else reject .unboundedGrid

omit [LevelScale α L] in
@[simp] theorem length_grid (θ φ : List α) : (grid θ φ).length = φ.length * θ.length := by
  simp [grid, List.length_flatMap, List.map_const']

/-- A function at every point of a grid, with a row for each azimuth. -/
def gridMap {β : Type} (f : Direction α → β) (θ φ : List α) : Tensor β :=
  ⟨[θ.length, φ.length], ((grid θ φ).map f).toArray, by simp [volume, Nat.mul_comm]⟩

omit [LevelScale α L] in
@[simp] theorem shape_gridMap {β : Type} (f : Direction α → β) (θ φ : List α) :
    (gridMap f θ φ).shape = [φ.length, θ.length] := rfl

omit [LevelScale α L] in
@[simp] theorem toList_gridMap {β : Type} (f : Direction α → β) (θ φ : List α) :
    (gridMap f θ φ).toList = (grid θ φ).map f := by
  simp [gridMap, Tensor.toList]

namespace PhasedArray

/-- The gain of an array, whose places are handed over, in one direction of a sweep: it is taken
from the powers of the array and of the element. A sweep does this for all directions at once. -/
def sweepGain (a : PhasedArray α) (points : List (Point α)) (ws : List (Phasor α))
    (d : Direction α) : L :=
  let power := square (Phasor.inner (wave points d) ws).abs
  let f := a.field d
  LevelScale.ofPower (power * (square f.phi + square f.theta))

/-- The gain at every point of a grid: the steering vectors of all points are rows of one table, the
fields of the element there are one tensor, and the product of their powers takes one logarithm. -/
def sweep (a : PhasedArray α) (weights : List (Phasor α)) (θ φ : List α) :
    Attempt (Tensor L) := do
  let ws ← a.weights weights
  let directions ← grid? θ φ
  let inclinations := directions.map Direction.theta
  let azimuths := directions.map Direction.phi
  let rows ← a.steeringRows inclinations azimuths
  let factors := rows.map fun row => square (Phasor.inner row ws).abs
  let fields ← a.fields (.ofList inclinations) (.ofList azimuths)
  let powers ← Tensor.combine (· * ·) (.ofList factors)
    (fields.map fun f => square f.phi + square f.theta)
  (powers.map LevelScale.ofPower).reshape [φ.length, θ.length]

end PhasedArray

/-! ## The peak -/

section Peak

variable {L : Type} [Ranked L]

/-- The index and the value of the greatest entry, where `best` is the greatest one so far, `place`
its index, and `next` the index of the first entry that is left. -/
def peakFrom (best : L) (place next : Nat) : List L → Nat × L
  | [] => (place, best)
  | x :: rest =>
    if Ranked.exceeds best x then peakFrom x next (next + 1) rest
    else peakFrom best place (next + 1) rest

/-- The index and the value of the first greatest entry. -/
def peak? : List L → Option (Nat × L)
  | [] => none
  | x :: rest => some (peakFrom x 0 1 rest)

/-- The direction and the value of the peak of a gain map with a row for each azimuth. -/
def mapPeak (θ φ : List α) (gain : Tensor L) : Attempt (Direction α × L) :=
  if gain.shape = [φ.length, θ.length] then
    match peak? gain.toList with
    | none => .error .incompatible
    | some (k, g) =>
      match θ[k % θ.length]?, φ[k / θ.length]? with
      | some t, some p => .ok (⟨t, p⟩, g)
      | _, _ => .error .noEntry
  else reject .gainShape

end Peak

end AntennaArray
