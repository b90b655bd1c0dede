import AntennaArray.Aim
import AntennaArray.Decimal.Reading
import AntennaArray.Panel.Basic
import AntennaArray.Room
import AntennaArray.Rotation

/-!
# Placements of elements

The elements of an array stand on a panel or at points of their own, in wavelengths. On a panel the
element at row `r` and column `c` has the index `r * columns + c`; the first one is at the origin.
Points of their own are taken as they are; two that round to one cell of a fine grid are refused.
-/

namespace AntennaArray

open Scalar

/-- Where the elements of an array stand. -/
inductive Placement (α : Type) where
  | panel (p : Panel α)
  | points (ps : List (Point α))

variable {α : Type} [Scalar α]

namespace Panel

def rotation (p : Panel α) : Rotation α := .ofAngles p.bearing p.downtilt

def localPoint (p : Panel α) (index : Nat) : Point α :=
  ⟨zero, p.horizontalSpacing * ofInt (index % p.columns : Nat),
    p.verticalSpacing * ofInt (index / p.columns : Nat)⟩

/-- The place of an element in space. -/
def globalPoint (p : Panel α) (index : Nat) : Point α := p.rotation.toGlobal (p.localPoint index)

/-- The places of all elements in space, in the order of their indices. -/
def points (p : Panel α) : List (Point α) :=
  let m := p.rotation.matrix
  (List.range p.size).map fun i => m.apply (p.localPoint i)

theorem points_eq (p : Panel α) : p.points = (List.range p.size).map p.globalPoint := rfl

@[simp] theorem length_points (p : Panel α) : p.points.length = p.size := by simp [points]

/-- The display of a panel: sizes, spacings, and the angles in degrees with one place. -/
def layoutText (p : Panel Float) : String :=
  let degrees (x : Float) := Decimal.fixed 1 (Angle.toDegrees x)
  "UniformPlanarArray(" ++ toString p.rows ++ "x" ++ toString p.columns
    ++ ", dH=" ++ Decimal.shortestText p.horizontalSpacing
    ++ ", dV=" ++ Decimal.shortestText p.verticalSpacing
    ++ ", bearing=" ++ degrees p.bearing ++ " deg, downtilt=" ++ degrees p.downtilt ++ " deg)"

end Panel

namespace Placement

def size : Placement α → Nat
  | .panel p => p.size
  | .points ps => ps.length

/-- The places of all elements, in the order of their indices. -/
def toPoints : Placement α → List (Point α)
  | .panel p => p.points
  | .points ps => ps

/-- The rotation of the elements; those at points of their own are not turned. -/
def rotation : Placement α → Rotation α
  | .panel p => p.rotation
  | .points _ => .ofAngles zero zero

@[simp] theorem length_toPoints (p : Placement α) : p.toPoints.length = p.size := by
  cases p <;> simp [toPoints, size]

/-- Refuses more elements than there is room for. -/
def screen : Placement α → Attempt Unit
  | .panel p => Room.screenRow p.size
  | .points _ => .ok ()

/-! ## Points of their own -/

/-- The grid width below which points are not told apart. -/
def gridWidth : α := one / ofInt 1000000000

/-- The cell of a fine grid to which a point rounds. -/
def cell (p : Point α) : Int × Int × Int :=
  (nearest (p.x / gridWidth), nearest (p.y / gridWidth), nearest (p.z / gridWidth))

def isBounded (p : Point α) : Bool := isFinite p.x && isFinite p.y && isFinite p.z

/-- A placement at some points: at least one, all finite, each in a cell of its own. -/
def ofPoints (ps : List (Point α)) : Attempt (Placement α) :=
  if ps.isEmpty then refuse .noPoints
  else if !ps.all isBounded then refuse .unboundedPoints
  else if (ps.map cell).Nodup then .ok (.points ps)
  else refuse .coincidentPoints

/-- Coordinates taken in threes. -/
def triples : List α → List (Point α)
  | x :: y :: z :: rest => ⟨x, y, z⟩ :: triples rest
  | _ => []

/-- A placement at the rows of a table of coordinates. -/
def ofTensor (t : Tensor α) : Attempt (Placement α) :=
  match t.shape with
  | [_, 3] => ofPoints (triples t.toList)
  | _ => refuse .notPoints

/-- Some finite points in rows of three coordinates are placed unless two of them are in one
cell. -/
theorem ofTensor_eq_ite {t : Tensor α} {n : Nat} (hshape : t.shape = [n, 3])
    (hsome : (triples t.toList).isEmpty = false)
    (hbounded : (triples t.toList).all isBounded = true) :
    ofTensor t = if ((triples t.toList).map cell).Nodup then .ok (.points (triples t.toList))
      else refuse .coincidentPoints := by
  simp only [ofTensor, hshape, ofPoints, hsome, hbounded]
  rfl

end Placement

/-! ## Single elements -/

namespace Value

/-- A value as an integer: a double loses its fraction, truth counts as one, a text is read. -/
def coerceInteger : Value → Attempt Int
  | .bool b => .ok (if b then 1 else 0)
  | .number (.integer n) => .ok n
  | .number (.double x) =>
    if x.isNaN then reject .notNumberIndex
    else if x.isInf then .error .infiniteIndex
    else .ok (Binary64.truncate x)
  | .text s =>
    match Decimal.readInteger s.toChars with
    | .ok n => .ok n
    | .error .malformed => reject (.notInteger s)
    | .error (.tooManyDigits count) => reject (.tooManyDigits count)
  | v => .error (.notAnInteger v.kindWord)

/-- A value as an index among `count` elements; one outside is shown as it was given. -/
def indexBelow (v : Value) (count : Nat) : Attempt (Fin count) := do
  let index ← v.coerceInteger
  if h : 0 ≤ index ∧ index.toNat < count then return ⟨index.toNat, h.2⟩
  else throw (.noElementAt v.plain count)

end Value

namespace Panel

/-- Whether a count is beyond the range of the scalars. -/
def isBeyond (α : Type) [Scalar α] (n : Nat) : Bool := !isFinite (ofInt n : α)

/-- The place of the element with a given index, in the frame of the panel. -/
def localLocation (p : Panel α) (v : Value) : Attempt (Point α) := do
  let i ← v.indexBelow p.size
  if isBeyond α (i % p.columns) || isBeyond α (i / p.columns) then throw .integerTooLarge
  else return p.localPoint i

/-- The place of the element with a given index, in space. -/
def location (p : Panel α) (v : Value) : Attempt (Point α) := do
  return p.rotation.toGlobal (← p.localLocation v)

end Panel

namespace Placement

/-- The place of the element with a given index. -/
def location (p : Placement α) (v : Value) : Attempt (Point α) :=
  match p with
  | .panel q => q.location v
  | .points ps => do
    let i ← v.indexBelow ps.length
    return ps.get i

end Placement

/-! ## Points carried into space -/

/-- Coordinates taken in threes along the last axis, carried from a panel into space. -/
def carry (bearing downtilt : Float) (t : Tensor Float) : Attempt (List (Point Float)) := do
  if bearing.isInf then reject .outsideDomain
  let r ← Rotation.ofAngles? bearing downtilt
  match t.axes with
  | [] => reject .noAxes
  | 3 :: _ =>
    let m := r.matrix
    return (Placement.triples t.toList).map m.apply
  | n :: _ => reject (.coordinates n 3)

end AntennaArray
