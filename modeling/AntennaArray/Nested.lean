import AntennaArray.Tensor

/-!
# Nested entries

Entries in rows, rows in rows, and so on to any depth. Rows that are even throughout hold the
entries of a tensor in row-major order.
-/

namespace AntennaArray

/-- A single entry, or a row of what is nested itself. -/
inductive Nested (α : Type) where
  | entry (x : α)
  | row (items : List (Nested α))

namespace Nested

variable {α : Type}

mutual

/-- The sizes of the axes, if the rows are even. -/
def shape? : Nested α → Option (List Nat)
  | .entry _ => some []
  | .row items => rowShape? items

/-- The common sizes of some items, after their number. -/
def rowShape? : List (Nested α) → Option (List Nat)
  | [] => some [0]
  | [v] => (shape? v).map (1 :: ·)
  | v :: rest => do
    match ← rowShape? rest with
    | n :: inner => if (← shape? v) = inner then some ((n + 1) :: inner) else none
    | [] => none

end

mutual

def entries : Nested α → List α
  | .entry x => [x]
  | .row items => rowEntries items

/-- The entries of some items, one item after another. -/
def rowEntries : List (Nested α) → List α
  | [] => []
  | v :: rest => entries v ++ rowEntries rest

end

/-- Whether the rows are even, and not nested too deeply for the axes of a tensor. -/
def isEven (v : Nested α) : Bool :=
  match v.shape? with
  | some shape => shape.length ≤ Tensor.axisLimit
  | none => false

/-- A single row of entries. -/
def ofList (xs : List α) : Nested α := .row (xs.map .entry)

end Nested

end AntennaArray
