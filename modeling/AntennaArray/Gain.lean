import AntennaArray.PhasedArray

/-!
# Gains

Levels in decibels of an array with its weights, of one element, and of both together. No power has
the level `-∞`.
-/

namespace AntennaArray

open Scalar

variable {α L : Type} [Scalar α] [LevelScale α L]

namespace Gain

/-- The length of the sum of products, for vectors of one size. -/
def pairing (first second : String) (a b : List (Phasor α)) : Attempt α :=
  if a.length = b.length then .ok (Phasor.inner a b).abs else reject (.pairShapes first second)

/-- The gain of an array: the weights are applied as they are. -/
def beamforming (steering weights : List (Phasor α)) : Attempt L := do
  return LevelScale.ofPower (square (← pairing "steering" "weights" steering weights))

/-- The gain of a codeword towards a steering vector, which is conjugated. -/
def codeword (codeword steering : List (Phasor α)) : Attempt L := do
  return LevelScale.ofAmplitude (← pairing "codeword" "steering" codeword (steering.map .conj))

/-- The square of a number, if a finite number has a finite one. -/
def square? (x : α) : Attempt α :=
  let y := square x
  if isFinite x && !isFinite y then .error .squareTooLarge else .ok y

def element (f : Field α) : Attempt L := do
  return LevelScale.ofPower ((← square? f.phi) + (← square? f.theta))

/-- The gain of one element with a field given as a list, which has to have two components. -/
def elementOfList (components : List α) : Attempt L :=
  match components with
  | [φ, θ] => element ⟨φ, θ⟩
  | [] => reject (.tooFewParts 2 0)
  | [_] => reject (.tooFewParts 2 1)
  | _ => reject (.tooManyParts 2)

/-- The gain of an array in a direction with given weights, or with those that point it there. -/
def composite (a : PhasedArray α) (d : Direction α) (weights : Option (List (Phasor α))) :
    Attempt L := do
  let ws ← match weights with
    | none => pure (a.beam d)
    | some ws => a.weights ws
  let array : L ← beamforming (a.steering d) ws
  let one : L ← element (a.field d)
  return array + one

end Gain

end AntennaArray
