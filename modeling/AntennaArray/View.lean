import AntennaArray.Angle
import AntennaArray.Fault
import AntennaArray.Tensor

/-!
# Views of sweeps

What is drawn of a gain map or of one cut through it: angles in degrees, gains raised to a floor. A
map leaves a place blank where the gain is not finite; a cut draws it at the floor.
-/

namespace AntennaArray.View

open Scalar

variable {α : Type} [Scalar α]

/-- The coordinates and the gains of a map; a blank is not a number. -/
structure GainMap (α : Type) where
  x : List α
  y : List α
  z : Tensor α

def degrees (angles : List α) : List α := angles.map Angle.toDegrees

/-- A gain map in its shape; a plain list of the right length is put into rows. -/
def shaped (rows columns : Nat) (gain : Tensor α) : Attempt (Tensor α) :=
  let whole :=
    match gain.shape with
    | [_] => (Tensor.ofShape? [rows, columns] gain.toList).getD gain
    | _ => gain
  if whole.shape = [rows, columns] then .ok whole else reject (.gainMap rows columns whole.shape)

/-- The gain that is drawn. -/
def drawn (blank : α) (floor : Option α) (g : α) : α :=
  let raised := match floor with
    | some f => maximum g f
    | none => g
  if isFinite raised then raised else blank

def gainMap (blank : α) (θ φ : List α) (gain : Tensor α) (floor : Option α) :
    Attempt (GainMap α) := do
  let z ← shaped φ.length θ.length gain
  return ⟨degrees θ, degrees φ, z.map (drawn blank floor)⟩

/-- Where the marker of a direction stands. -/
def marker (d : Direction α) : α × α := d.normalized.degrees

/-- The greatest drawn gain of a map, blanks left aside. -/
def height (m : GainMap α) : Attempt α :=
  match m.z.toList with
  | [] => .error .incompatible
  | g :: rest => .ok (rest.foldl (fun a b => if isNaN a then b else if lt a b then b else a) g)

/-- One cut: radii, angles in degrees and the range of the radii. -/
structure Cut (α : Type) where
  radii : List α
  angles : List α
  low : α
  high : α

/-- The lowest gain of a cut, if no other is given. -/
def lowest : α := -ofInt 30

def radius (floor g : α) : α := maximum (if isFinite g then g else floor) floor

def cut (angles gains : List α) (floor : α) : Attempt (Cut α) :=
  if angles.length ≠ gains.length then reject .cutLengths
  else
    match gains.map (radius floor) with
    | [] => .error .incompatible
    | r :: rest => .ok ⟨r :: rest, degrees angles, floor, rest.foldl maximum r⟩

end AntennaArray.View
