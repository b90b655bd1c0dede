import AntennaArray.Proofs.Gain
import AntennaArray.Proofs.Vectorized
import AntennaArray.Sweep

/-!
# Sweeps and single gains

A sweep runs over a flattened grid at once, multiplies the powers of the array and of the element
and takes one logarithm; the gain in a single direction adds two levels. A sweep is first taken
apart into its points, which any arithmetic allows (`sweep_eq_gridMap`). Over the real numbers its
cells are then the gains in the single directions, down to no power at all
(`exists_sweep_eq_composite`).
-/

namespace AntennaArray

open Scalar

variable {α β γ : Type}

/-- The entry of a table in a row and a column. -/
def Tensor.cell? (t : Tensor α) (row column : Nat) : Option α :=
  match t.axes with
  | [columns, rows] =>
    if row < rows ∧ column < columns then t.toList[row * columns + column]? else none
  | _ => none

/-- Rows of one length laid out one after another: where the entry in a row and a column stands. -/
theorem getElem?_flatMap_map (f : α → β → γ) (xs : List α) (ys : List β) (i : Fin xs.length)
    (j : Fin ys.length) :
    (xs.flatMap fun x => ys.map (f x))[i * ys.length + j]? = some (f xs[i] ys[j]) := by
  obtain ⟨i, hi⟩ := i
  induction xs generalizing i with
  | nil => exact absurd hi (Nat.not_lt_zero i)
  | cons x xs ih =>
    cases i with
    | zero =>
      have hj : 0 * ys.length + (j : Nat) < (ys.map (f x)).length := by simp
      rw [List.flatMap_cons, List.getElem?_append_left hj]
      simp
    | succ i =>
      have hskip : (i + 1) * ys.length + (j : Nat)
          = (ys.map (f x)).length + (i * ys.length + j) := by
        rw [List.length_map]
        ring
      rw [List.flatMap_cons, hskip, List.getElem?_append_right (Nat.le_add_right _ _),
        Nat.add_sub_cancel_left]
      exact ih i (Nat.lt_of_succ_lt_succ hi)

section

variable [Scalar α]

/-- Inclinations run fastest in a grid, and all angles are in their ranges. -/
theorem getElem?_grid (θ φ : List α) (i : Fin φ.length) (j : Fin θ.length) :
    (grid θ φ)[i * θ.length + j]? = some (Direction.normalized ⟨θ[j], φ[i]⟩) :=
  getElem?_flatMap_map (fun p t => Direction.normalized ⟨t, p⟩) φ θ i j

/-- The cell of a map over a grid. -/
theorem cell?_gridMap (f : Direction α → β) (θ φ : List α) (i : Fin φ.length)
    (j : Fin θ.length) :
    (gridMap f θ φ).cell? i j = some (f (Direction.normalized ⟨θ[j], φ[i]⟩)) := by
  have hbounds : (i : Nat) < φ.length ∧ (j : Nat) < θ.length := ⟨i.isLt, j.isLt⟩
  calc (gridMap f θ φ).cell? i j
      = (gridMap f θ φ).toList[i * θ.length + j]? := if_pos hbounds
    _ = ((grid θ φ)[i * θ.length + j]?).map f := by rw [toList_gridMap, List.getElem?_map]
    _ = some (f (Direction.normalized ⟨θ[j], φ[i]⟩)) := by rw [getElem?_grid]; rfl

/-- What is found at the points of a flattened grid is put back into rows. -/
theorem reshape_map_grid (f : Direction α → β) (θ φ : List α) :
    ((Tensor.ofList (grid θ φ)).map f).reshape [φ.length, θ.length] = .ok (gridMap f θ φ) := by
  have hlist : ((Tensor.ofList (grid θ φ)).map f).toList = (grid θ φ).map f := by simp
  have hlength : ((grid θ φ).map f).length = volume [φ.length, θ.length].reverse := by
    simp [volume, Nat.mul_comm]
  rw [Tensor.reshape, hlist, Tensor.ofShape?, dif_pos hlength]
  rfl

theorem grid?_of_isFinite {θ φ : List α} (h : (θ.all isFinite && φ.all isFinite) = true) :
    grid? θ φ = .ok (grid θ φ) :=
  if_pos h

/-- A grid is made of finite angles. -/
theorem eq_grid_of_grid? {θ φ : List α} {directions : List (Direction α)}
    (h : grid? θ φ = .ok directions) : directions = grid θ φ := by
  rw [grid?] at h
  split at h
  · exact (Except.ok.inj h).symm
  · cases h

end

namespace PhasedArray

/-! ## The whole grid at once -/

section

variable {L : Type} [Scalar α] [LevelScale α L]

/-- A sweep of the whole grid at once is a sweep point by point: rows of steering vectors and
tensors of fields hold what a single direction has, whatever the arithmetic is. -/
theorem sweep_eq_gridMap (a : PhasedArray α) (ws : List (Phasor α)) (θ φ : List α) :
    (a.sweep ws θ φ : Attempt (Tensor L)) = do
      let vs ← a.weights ws
      let _ ← grid? θ φ
      return gridMap (a.sweepGain a.points vs) θ φ := by
  rw [sweep]
  refine bind_congr fun vs => ?_
  cases hgrid : grid? θ φ with
  | error f => rfl
  | ok ds =>
    obtain rfl := eq_grid_of_grid? hgrid
    let whole := Tensor.ofList (grid θ φ)
    let factor (d : Direction α) := square (Phasor.inner (a.steering d) vs).abs
    let power (d : Direction α) := square (a.field d).phi + square (a.field d).theta
    have hfactors : Tensor.ofList (((grid θ φ).map a.steering).map fun row =>
        square (Phasor.inner row vs).abs) = whole.map factor := by
      rw [List.map_map, Tensor.map_ofList]
      rfl
    have hpowers : Tensor.combine (· * ·) (whole.map factor) (whole.map power)
        = .ok (whole.map fun d => factor d * power d) :=
      (Tensor.Follows.self whole factor).combine_whole power _
    simp only [ok_bind, steeringRows_angles, fields_angles, hfactors, Tensor.map_map]
    rw [hpowers, ok_bind, Tensor.map_map, reshape_map_grid]
    rfl

/-- A sweep over finite angles with a weight for each element succeeds. -/
theorem sweep_of_isFinite {a : PhasedArray α} {ws : List (Phasor α)} (h : ws.length = a.size)
    {θ φ : List α} (hfinite : (θ.all isFinite && φ.all isFinite) = true) :
    (a.sweep ws θ φ : Attempt (Tensor L)) = .ok (gridMap (a.sweepGain a.points ws) θ φ) := by
  have hweights : a.weights ws = .ok ws := weights_eq_ok.mpr ⟨h, rfl⟩
  rw [sweep_eq_gridMap, hweights, ok_bind, grid?_of_isFinite hfinite, ok_bind]
  rfl

end

variable {a : PhasedArray ℝ} {d : Direction ℝ} {ws : List (Phasor ℝ)}

/-- One logarithm of the product of powers gives the sum of the levels. -/
theorem sweepGain_eq (a : PhasedArray ℝ) (ws : List (Phasor ℝ)) (d : Direction ℝ) :
    (a.sweepGain a.points ws d : WithBot ℝ)
      = (LevelScale.ofPower (a.factor ws d) : WithBot ℝ)
        + LevelScale.ofPower (a.amplitude d ^ 2) := by
  rw [← power_field, ← LevelScale.ofPower_mul]
  rfl

/-- In a direction of a sweep there is no power where the array or the element has none. -/
theorem sweepGain_eq_bot :
    (a.sweepGain a.points ws d : WithBot ℝ) = ⊥ ↔ a.factor ws d = 0 ∨ (a.field d).power = 0 := by
  rw [sweepGain_eq, WithBot.add_eq_bot, LevelScale.ofPower_eq_bot, LevelScale.ofPower_eq_bot,
    power_field]

/-- Angles over the real numbers are all finite, so a sweep with a weight for each element
succeeds. -/
theorem sweep_eq_ok (h : ws.length = a.size) (θ φ : List ℝ) :
    (a.sweep ws θ φ : Attempt (Tensor (WithBot ℝ)))
      = .ok (gridMap (a.sweepGain a.points ws) θ φ) :=
  sweep_of_isFinite h (by simp)

/-- A sweep has a row for each azimuth and a column for each inclination. Its cell there is the gain
of the array in the direction with these two angles, brought into their ranges; the cell is `-∞`
exactly where the array factor or the power of the element vanishes. -/
theorem exists_sweep_eq_composite (a : PhasedArray ℝ) (ws : List (Phasor ℝ))
    (h : ws.length = a.size) (θ φ : List ℝ) :
    ∃ map : Tensor (WithBot ℝ), a.sweep ws θ φ = .ok map ∧ map.shape = [φ.length, θ.length] ∧
      ∀ (i : Fin φ.length) (j : Fin θ.length),
        let d : Direction ℝ := Direction.normalized ⟨θ[j], φ[i]⟩
        ∃ g : WithBot ℝ, map.cell? i j = some g ∧ Gain.composite a d (some ws) = .ok g ∧
          (g = ⊥ ↔ a.factor ws d = 0 ∨ (a.field d).power = 0) := by
  refine ⟨_, sweep_eq_ok h θ φ, shape_gridMap _ θ φ, ?_⟩
  intro i j d
  refine ⟨a.sweepGain a.points ws d, cell?_gridMap _ θ φ i j, ?_, sweepGain_eq_bot⟩
  rw [sweepGain_eq, Gain.composite_eq_ok h]
  rfl

/-- Two elements with opposite weights swept over one inclination and two azimuths. -/
theorem exists_sweep_eq_composite_pair :
    let a : PhasedArray ℝ := .of (.points [⟨0, 0, 0⟩, ⟨1, 0, 0⟩]) .isotropic
    let ws : List (Phasor ℝ) := [⟨1, 0⟩, ⟨-1, 0⟩]
    ws.length = a.size ∧ ∃ map : Tensor (WithBot ℝ),
      a.sweep ws [1] [0, 7] = .ok map ∧ map.shape = [2, 1] ∧
        ∃ g : WithBot ℝ, map.cell? 1 0 = some g ∧
          Gain.composite a (Direction.normalized ⟨1, 7⟩) (some ws) = .ok g := by
  intro a ws
  obtain ⟨map, hmap, hshape, hcells⟩ := exists_sweep_eq_composite a ws rfl [1] [0, 7]
  obtain ⟨g, hcell, hgain, -⟩ := hcells 1 0
  exact ⟨rfl, map, hmap, hshape, g, hcell, hgain⟩

end PhasedArray

end AntennaArray
