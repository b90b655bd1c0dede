import AntennaArray.Sweep

/-!
# Codebooks

A codebook holds a steering vector of norm one for every direction of a grid. The weights that point
the array at an entry are its conjugate; the best entry for a steering vector has the inner product
of greatest length.
-/

namespace AntennaArray

open Scalar

-- powers are repeated products, whichever other powers are known
attribute [local instance (high)] instPowNat

variable {α L : Type} [Scalar α] [LevelScale α L]

/-- A table of phasors with a row for each entry. -/
abbrev Codebook (α : Type) := Tensor (Phasor α)

namespace Codebook

/-- The rows of a table with the given number of columns. -/
def chunks (width : Nat) : Nat → List (Phasor α) → List (List (Phasor α))
  | 0, _ => []
  | count + 1, xs => xs.take width :: chunks width count (xs.drop width)

/-- The number of columns and the rows of a codebook, if it is a table. -/
def table? (cb : Codebook α) : Option (Nat × List (List (Phasor α))) :=
  match cb.axes with
  | [width, count] => some (width, chunks width count cb.toList)
  | _ => none

/-- The entries of a codebook for an array over some directions: the steering vectors, divided by
their norms. -/
def entries (a : PhasedArray α) (directions : List (Direction α)) :
    Attempt (List (List (Phasor α))) := do
  let rows ← a.steeringRows (directions.map Direction.theta) (directions.map Direction.phi)
  return rows.map Phasor.normalize

/-- The codebook of an array over a grid, with the directions of its entries. -/
def ofGrid (a : PhasedArray α) (θ φ : List α) :
    Attempt (List (List (Phasor α)) × List (Direction α)) := do
  let directions ← grid? θ φ
  return (← entries a directions, directions)

/-- The row with an index, which counts from the end if it is negative. -/
def row? (rows : List (List (Phasor α))) (k : Int) : Option (List (Phasor α)) :=
  let place := if k < 0 then k + rows.length else k
  if place < 0 then none else rows[place.toNat]?

/-- The least number that is beyond every index: an index has 63 bits and a sign. -/
def indexLimit : Nat := 2 ^ (63 : Nat)

/-- Refuses a number with a bit more than an index. A longer one is no index, as one is that is
beyond the last entry. -/
def screenIndex (k : Int) : Attempt Unit :=
  if indexLimit ≤ k ∧ k < 2 * indexLimit then .error .indexTooLarge else .ok ()

/-- The weights that point the array at an entry: its conjugate with norm one. -/
def weightsOf (row : List (Phasor α)) : List (Phasor α) := Phasor.normalize (row.map .conj)

def weights (cb : Codebook α) (k : Value) : Attempt (List (Phasor α)) := do
  match cb.table? with
  | none => reject .codebookRank
  | some (_, rows) =>
    let k ← k.coerceInteger
    screenIndex k
    match row? rows k with
    | some row => return weightsOf row
    | none => .error .noEntry

/-- The length of the inner product of an entry with a steering vector. -/
def likeness (steering row : List (Phasor α)) : α := (Phasor.inner row (steering.map .conj)).abs

/-- The first entry that is most like a steering vector, with its gain. -/
def best (cb : Codebook α) (steering : List (Phasor α)) : Attempt (Nat × L) := do
  match cb.table? with
  | none => reject .codebookWidth
  | some (width, rows) =>
    if width ≠ steering.length then reject .codebookWidth
    else
      match peak? (rows.map (likeness steering)) with
      | none => .error .incompatible
      | some (k, _) => return (k, ← Gain.codeword (rows.getD k []) steering)

end Codebook

end AntennaArray
