import AntennaArray.Proofs.PanelLayout
import AntennaArray.Proofs.Sweep

/-!
# A panel as points of its own

The places of the elements of a panel can be handed over as a table of points. That is accepted if
the spacings are more than twice the width of the grid: two points in one cell are closer together
than that (`Placement.distSq_le_of_cell_eq`), and elements of a panel are not. What comes of it has
the same elements at the same indices, and waves arrive there with the same phases, since these go
by the points alone. Only the rotation is lost, so fields and gains are the same if there is none
(`Panel.exists_asPoints`). Cells of real numbers have no last one, so a panel may be of any size.
-/

namespace AntennaArray

open Scalar

/-! ## Cells -/

/-- A nearest integer is off by a half at most. -/
theorem abs_nearestEven_sub_le (x : ℝ) : |nearestEven x - x| ≤ 1 / 2 := by
  have hlow := Int.floor_le x
  have hhigh := Int.lt_floor_add_one x
  rw [nearestEven]
  split
  · next h => rw [abs_le]; constructor <;> linarith
  · next h =>
    split
    · next h' => push_cast; rw [abs_le]; constructor <;> linarith
    · next h' =>
      -- the number is half way between two integers
      rcases Int.emod_two_eq_zero_or_one ⌊x⌋ with heven | hodd
      · rw [heven, add_zero, abs_le]
        constructor <;> linarith
      · rw [hodd]
        push_cast
        rw [abs_le]
        constructor <;> linarith

namespace Placement

theorem gridWidth_real : (gridWidth : ℝ) = 1 / 10 ^ 9 := by
  simp only [gridWidth, one_real, ofInt_real]
  norm_num

theorem gridWidth_pos : (0 : ℝ) < gridWidth := by
  rw [gridWidth_real]
  positivity

/-- Coordinates that are nearest to one multiple of the width differ by the width at most. -/
theorem abs_sub_le_of_nearest_eq {x y : ℝ} (h : nearest (x / gridWidth) = nearest (y / gridWidth)) :
    |x - y| ≤ gridWidth := by
  have hx := abs_nearestEven_sub_le (x / gridWidth)
  have hy := abs_nearestEven_sub_le (y / gridWidth)
  rw [show nearestEven (x / gridWidth) = nearestEven (y / gridWidth) from h, abs_sub_comm] at hx
  have hquotient : |x / gridWidth - y / gridWidth| ≤ 1 :=
    (abs_sub_le _ (nearestEven (y / gridWidth) : ℝ) _).trans (by linarith)
  rwa [← sub_div, abs_div, abs_of_pos gridWidth_pos, div_le_one gridWidth_pos] at hquotient

/-- Points in one cell are no farther apart than its corners. -/
theorem distSq_le_of_cell_eq {a b : Point ℝ} (h : cell a = cell b) :
    a.distSq b ≤ 3 * (gridWidth : ℝ) ^ 2 := by
  rw [cell, cell, Prod.mk.injEq, Prod.mk.injEq] at h
  have hx := sq_le_sq.mpr ((abs_sub_le_of_nearest_eq h.1).trans (le_abs_self _))
  have hy := sq_le_sq.mpr ((abs_sub_le_of_nearest_eq h.2.1).trans (le_abs_self _))
  have hz := sq_le_sq.mpr ((abs_sub_le_of_nearest_eq h.2.2).trans (le_abs_self _))
  rw [Point.distSq_eq]
  linarith

end Placement

namespace Panel

variable {p : Panel ℝ}

/-- Elements that are more than twice the width of the grid apart are in cells of their own. -/
theorem nodup_cells_points (hH : 2 * Placement.gridWidth < p.horizontalSpacing)
    (hV : 2 * Placement.gridWidth < p.verticalSpacing) : (p.points.map Placement.cell).Nodup := by
  have hwidth := Placement.gridWidth_pos
  rw [points_eq_ofFn, List.map_ofFn]
  refine List.nodup_ofFn.mpr fun i j hij => ?_
  by_contra hne
  have hapart := sq_le_distSq (by positivity) hH.le hV.le hne
  have hnear := hapart.trans (Placement.distSq_le_of_cell_eq hij)
  nlinarith

end Panel

/-! ## Tables of points -/

namespace Placement

variable {α : Type} [Scalar α]

omit [Scalar α] in
/-- Coordinates in a row, taken in threes, are the points again. -/
theorem triples_flatMap_toList (ps : List (Point α)) : triples (ps.flatMap Point.toList) = ps := by
  induction ps with
  | nil => rfl
  | cons p ps ih =>
    rw [List.flatMap_cons]
    show ⟨p.x, p.y, p.z⟩ :: triples (ps.flatMap Point.toList) = p :: ps
    rw [ih]

/-- The places of all elements as a table with a row of coordinates for each. -/
def table (p : Placement α) : Tensor α :=
  ⟨[3, p.size], (p.toPoints.flatMap Point.toList).toArray, by
    simp [volume, List.length_flatMap, Point.toList, List.map_const', Nat.mul_comm]⟩

@[simp] theorem shape_table (p : Placement α) : p.table.shape = [p.size, 3] := rfl

@[simp] theorem triples_table (p : Placement α) : triples p.table.toList = p.toPoints :=
  triples_flatMap_toList p.toPoints

/-- A table is accepted if it has three columns and at least one row, and the points in its rows are
in cells of their own. -/
theorem ofTensor_of_nodup {t : Tensor ℝ} {n : ℕ} (hshape : t.shape = [n, 3])
    (hsome : triples t.toList ≠ []) (hcells : ((triples t.toList).map cell).Nodup) :
    ofTensor t = .ok (.points (triples t.toList)) := by
  have hempty : (triples t.toList).isEmpty = false := List.isEmpty_eq_false_iff.mpr hsome
  have hbounded : (triples t.toList).all isBounded = true := List.all_eq_true.mpr fun _ _ => rfl
  rw [ofTensor_eq_ite hshape hempty hbounded, if_pos hcells]

/-- The table of some elements in cells of their own is accepted. -/
theorem ofTensor_table {p : Placement ℝ} (hsize : 0 < p.size)
    (hcells : (p.toPoints.map cell).Nodup) : ofTensor p.table = .ok (.points p.toPoints) := by
  rw [← triples_table] at hcells ⊢
  refine ofTensor_of_nodup p.shape_table (List.length_pos_iff.mp ?_) hcells
  rw [triples_table, length_toPoints]
  exact hsize

end Placement

/-! ## Elements by their indices -/

/-- Attempts with an index below one count go on as with an index below an equal one. -/
theorem Value.indexBelow_bind_congr {β : Type} {m n : ℕ} (v : Value) (h : m = n)
    {f : Fin m → Attempt β} {g : Fin n → Attempt β} (hfg : ∀ i, f i = g (i.cast h)) :
    v.indexBelow m >>= f = v.indexBelow n >>= g := by
  subst h
  rw [funext hfg]
  rfl

/-- An element of a panel is found by the same values among its points. -/
theorem Placement.location_points (p : Panel ℝ) (v : Value) :
    (Placement.points p.points).location v = (Placement.panel p).location v := by
  have hpanel : (Placement.panel p).location v
      = v.indexBelow p.size >>= fun i => .ok (p.globalPoint i) := by
    show (p.localLocation v >>= fun q => .ok (p.rotation.toGlobal q)) = _
    rw [Panel.localLocation]
    cases v.indexBelow p.size with
    | error f => rfl
    | ok i => rfl
  rw [hpanel]
  refine v.indexBelow_bind_congr p.length_points fun i => ?_
  have hget : p.points.get i = p.globalPoint i := by
    have hlisted := p.getElem?_points (i.cast p.length_points)
    exact (List.getElem?_eq_some_iff.mp hlisted).2
  exact congrArg Except.ok hget

/-! ## Arrays -/

namespace PhasedArray

/-- Two arrays have equal vectors in every direction. -/
structure SameVectors (a b : PhasedArray ℝ) : Prop where
  steering : ∀ d, a.steering d = b.steering d
  beam : ∀ d, a.beam d = b.beam d
  steeringRows : ∀ θ φ, a.steeringRows θ φ = b.steeringRows θ φ

/-- Two arrays have equal fields of an element and equal gains, with any weights and with none. -/
structure SamePatterns (a b : PhasedArray ℝ) : Prop where
  field : ∀ d, a.field d = b.field d
  fieldTowards : ∀ aim, a.fieldTowards aim = b.fieldTowards aim
  fields : ∀ θ φ, a.fields θ φ = b.fields θ φ
  composite : ∀ d ws, (Gain.composite a d ws : Attempt (WithBot ℝ)) = Gain.composite b d ws
  sweep : ∀ ws θ φ, (a.sweep ws θ φ : Attempt (Tensor (WithBot ℝ))) = b.sweep ws θ φ

variable {a b : PhasedArray ℝ}

/-- Vectors go by the points alone. -/
theorem sameVectors_of_points (h : a.points = b.points) : a.SameVectors b := by
  have hsteering (d : Direction ℝ) : a.steering d = b.steering d := by
    rw [steering, steering, h]
  refine ⟨hsteering, fun d => ?_, fun θ φ => ?_⟩
  · rw [beam, beam, hsteering]
  · rw [steeringRows, steeringRows, h]

/-- Fields go by the element and its rotation, and gains by these and the vectors. -/
theorem samePatterns_of_rotation (hpoints : a.points = b.points)
    (hrotation : a.rotation = b.rotation) (hradiator : a.radiator = b.radiator) :
    a.SamePatterns b := by
  have hvectors := sameVectors_of_points hpoints
  have hfield (d : Direction ℝ) : a.field d = b.field d := by
    rw [field, field, hrotation, hradiator]
  have hweights (ws : List (Phasor ℝ)) : a.weights ws = b.weights ws := by
    rw [weights, weights, ← length_points a, ← length_points b, hpoints]
  have hfields (θ φ : Tensor ℝ) : a.fields θ φ = b.fields θ φ := by
    rw [fields, fields, hrotation, hradiator]
  refine ⟨hfield, fun aim => ?_, hfields, fun d ws => ?_, fun ws θ φ => ?_⟩
  · simp only [fieldTowards, hfields]
  · simp only [Gain.composite, hvectors.steering, hvectors.beam, hweights, hfield]
  · have hgain (vs : List (Phasor ℝ)) :
        (a.sweepGain a.points vs : Direction ℝ → WithBot ℝ) = b.sweepGain b.points vs := by
      funext d
      simp only [sweepGain, hpoints, hfield]
    simp only [sweep_eq_gridMap, hweights, hgain]

end PhasedArray

/-! ## Panels as points -/

namespace Panel

/-- The table of the places of a panel is accepted if the spacings are more than twice the width of
the grid. There are as many elements then, each is found by the same values at the same place, and
arrays at these places have equal vectors; they have equal patterns too if the panel is not
turned. -/
theorem exists_asPoints (p : Panel ℝ) (hH : 2 / 10 ^ 9 < p.horizontalSpacing)
    (hV : 2 / 10 ^ 9 < p.verticalSpacing) :
    ∃ q : Placement ℝ, Placement.ofTensor (Placement.panel p).table = .ok q ∧
      q.size = p.size ∧ (∀ v, q.location v = (Placement.panel p).location v) ∧
      ∀ r : Radiator ℝ, PhasedArray.SameVectors ⟨q, r⟩ ⟨.panel p, r⟩ ∧
        (p.bearing = 0 → p.downtilt = 0 → PhasedArray.SamePatterns ⟨q, r⟩ ⟨.panel p, r⟩) := by
  have hwidth : 2 * (Placement.gridWidth : ℝ) = 2 / 10 ^ 9 := by
    rw [Placement.gridWidth_real]
    ring
  rw [← hwidth] at hH hV
  refine ⟨.points p.points, Placement.ofTensor_table p.size_pos (nodup_cells_points hH hV),
    p.length_points, Placement.location_points p, fun r =>
      ⟨PhasedArray.sameVectors_of_points rfl, fun hb hd => ?_⟩⟩
  refine PhasedArray.samePatterns_of_rotation rfl ?_ rfl
  show Rotation.ofAngles zero zero = Rotation.ofAngles p.bearing p.downtilt
  rw [hb, hd, zero_real]

/-- Two elements one above the other, half a wavelength apart, which are not turned. -/
theorem exists_asPoints_column :
    let p : Panel ℝ := ⟨2, 1, 1 / 2, 1 / 2, 0, 0, by decide, by decide⟩
    2 / 10 ^ 9 < p.horizontalSpacing ∧ 2 / 10 ^ 9 < p.verticalSpacing ∧
      ∃ q : Placement ℝ, Placement.ofTensor (Placement.panel p).table = .ok q ∧ q.size = 2 ∧
        ∀ r : Radiator ℝ, PhasedArray.SamePatterns ⟨q, r⟩ ⟨.panel p, r⟩ := by
  intro p
  have hspacing : (2 : ℝ) / 10 ^ 9 < 1 / 2 := by norm_num
  obtain ⟨q, hq, hsize, -, hsame⟩ := exists_asPoints p hspacing hspacing
  exact ⟨hspacing, hspacing, q, hq, hsize, fun r => (hsame r).2 rfl rfl⟩

end Panel

end AntennaArray
