import AntennaArray.Aim

/-!
# Nearest directions

An index holds the unit vectors of some directions. The distance between two unit vectors grows with
the angle between them, so the directions nearest to another one are found by distance, without any
care for the poles or for azimuths that wrap. How the points are searched does not matter for that;
the search that runs here compares all of them.
-/

namespace AntennaArray

open Scalar

variable {α : Type} [Scalar α]

/-- A search among some points for as many of them as are asked for that are nearest to a given one:
their indices and their distances, nearest first. -/
abbrev PointSearch (α : Type) := List (Point α) → Point α → Nat → List (Nat × α)

/-- The unit vectors of some directions. -/
structure DirectionIndex (α : Type) where
  vectors : List (Point α)

namespace DirectionIndex

/-- Angles taken in twos. -/
def pairs : List α → List (Direction α)
  | t :: p :: rest => ⟨t, p⟩ :: pairs rest
  | _ => []

def build (t : Tensor α) : Attempt (DirectionIndex α) :=
  match t.shape with
  | [_, 2] =>
    if t.toList.all isFinite then
      if t.toList.isEmpty then .error .incompatible
      else .ok ⟨(pairs t.toList).map Direction.vector⟩
    else reject .unboundedDirections
  | _ => reject .directionRows

def distance (p q : Point α) : α :=
  sqrt (square (p.x - q.x) + square (p.y - q.y) + square (p.z - q.z))

/-- The angle between unit vectors at a distance. -/
def angle (distance : α) : α := ofInt 2 * asin (clip zero one (distance / ofInt 2))

/-- Whether a coordinate is not a number. -/
def isUndefined (p : Point α) : Bool := isNaN p.x || isNaN p.y || isNaN p.z

/-- The points with their distances from a given one, nearest first. -/
def ranking (points : List (Point α)) (q : Point α) : List (Nat × α) :=
  (points.mapIdx fun i p => (i, distance p q)).mergeSort fun a b => le a.2 b.2

/-- The search that compares all points with the given one. -/
def scan : PointSearch α := fun points q count => (ranking points q).take count

/-- A count of directions of which there are so many. More than there are cannot be asked for, and
only an integer counts. -/
def countOf (available : Nat) : Value → Attempt Nat
  | .number (.integer n) =>
    if 0 ≤ n ∧ n ≤ (available : Int) then .ok n.toNat else .error .incompatible
  | .number (.double x) =>
    if Binary64.ofInt available < x then .error .incompatible else .error .notACount
  | .bool _ => .error .notACount
  | v => .error (.uncomparable v.kindWord)

/-- The nearest directions to an aim, or to the first one of several, as a search finds them, with
the angles to them; there must be as many as are asked for. -/
def queryBy (search : PointSearch α) (index : DirectionIndex α) (aim : Aim α) (count : Value) :
    Attempt (List (Nat × α)) := do
  let (θ, φ) ← aim.pair
  let vectors := (← overVectors θ φ).toList
  if vectors.any isUndefined then .error .incompatible
  else
    match vectors with
    | [] => .error .incompatible
    | q :: _ =>
      let found := search index.vectors q (← countOf index.vectors.length count)
      return found.map fun (i, d) => (i, angle d)

/-- The nearest directions to an aim, found by comparing all of them. -/
def query (index : DirectionIndex α) (aim : Aim α) (count : Value) : Attempt (List (Nat × α)) :=
  index.queryBy scan aim count

end DirectionIndex

end AntennaArray
