import AntennaArray.Proofs.Binary64.Wrapping
import AntennaArray.Proofs.Peak
import AntennaArray.Proofs.Table

/-!
# One order for grids, sweeps, tables and peaks

The point with the `i`-th azimuth and the `j`-th inclination has the index `i * n + j`, where `n` is
the number of inclinations. Grids, sweeps, tables and peaks compute this index each in its own way;
`grid_order` says that they all mean the same point by it, and what a line of a table spells.
-/

namespace AntennaArray

namespace Tensor

variable {α : Type} {t : Tensor α} {rows columns : ℕ}

/-- The cells of a table stand row after row. -/
theorem cell?_eq_getElem? (h : t.shape = [rows, columns]) (i : Fin rows) (j : Fin columns) :
    t.cell? i j = t.toList[i * columns + j]? := by
  rw [cell?, axes_of_shape h]
  exact if_pos ⟨i.isLt, j.isLt⟩

/-- Every cell of a table has an entry. -/
theorem exists_cell?_eq (h : t.shape = [rows, columns]) (i : Fin rows) (j : Fin columns) :
    ∃ x, t.cell? i j = some x := by
  have hlt : i * columns + j < t.toList.length := by
    rw [length_toList_of_shape h]
    calc i * columns + j < i * columns + columns := Nat.add_lt_add_left j.isLt _
      _ = (i + 1) * columns := by ring
      _ ≤ rows * columns := Nat.mul_le_mul_right _ i.isLt
  exact ⟨_, (cell?_eq_getElem? h i j).trans (List.getElem?_eq_getElem hlt)⟩

end Tensor

variable {θ φ : List Float} {g : Tensor Float}

/-! ## Tables -/

namespace Table

theorem rows_eq_reject_iff :
    rows θ φ g = reject .gainShape ↔ g.shape ≠ [φ.length, θ.length] := by
  rw [rows]
  split
  · next h => exact iff_of_false nofun (not_not.mpr h)
  · next h => exact iff_of_true rfl h

/-- A line has the two angles of a point and the gain there. -/
theorem getElem?_rows {rs : List (Float × Float × Float)} (h : rows θ φ g = .ok rs)
    (i : Fin φ.length) (j : Fin θ.length) :
    rs[i * θ.length + j]? = (g.cell? i j).map fun x => (θ[j], φ[i], x) := by
  rw [rows] at h
  split at h
  · next hshape =>
    cases h
    have hpoint : (points θ φ)[i * θ.length + j]? = some (θ[j], φ[i]) :=
      getElem?_flatMap_map (fun p t => (t, p)) φ θ i j
    rw [List.getElem?_zipWith, hpoint, ← Tensor.cell?_eq_getElem? hshape]
    cases g.cell? i j <;> rfl
  · cases h

theorem length_rows {rs : List (Float × Float × Float)} (h : rows θ φ g = .ok rs) :
    rs.length = φ.length * θ.length := by
  rw [rows] at h
  split at h
  · next hshape =>
    cases h
    rw [List.length_zipWith, length_points, Tensor.length_toList_of_shape hshape, min_self]
  · cases h

/-- The table of a map: its rows are the points in the common order with the gains of the map, and
its text has a heading and a line for each row that spells it. -/
structure IsOrdered (θ φ : List Float) (g : Tensor Float) (rs : List (Float × Float × Float))
    (samples : List (List Char)) : Prop where
  rows_eq : rows θ φ g = .ok rs
  length_rows : rs.length = φ.length * θ.length
  lines : (text rs).toList.splitOn '\n' = heading.toList :: samples ++ [[]]
  length_samples : samples.length = φ.length * θ.length
  sample (i : Fin φ.length) (j : Fin θ.length) : ∃ x sample, g.cell? i j = some x ∧
    rs[i * θ.length + j]? = some (θ[j], φ[i], x) ∧
    samples[i * θ.length + j]? = some sample ∧ Carries sample (θ[j], φ[i], x)

theorem exists_isOrdered (hshape : g.shape = [φ.length, θ.length]) :
    ∃ rs samples, IsOrdered θ φ g rs samples := by
  obtain ⟨rs, hrows⟩ : ∃ rs, rows θ φ g = .ok rs := ⟨_, if_pos hshape⟩
  have hlength := length_rows hrows
  refine ⟨rs, rs.map fun row => (line row).toList, hrows, hlength, splitOn_text rs,
    by rw [List.length_map, hlength], fun i j => ?_⟩
  obtain ⟨x, hx⟩ := Tensor.exists_cell?_eq hshape i j
  have hrow := getElem?_rows hrows i j
  rw [hx, Option.map_some] at hrow
  refine ⟨x, _, hx, hrow, ?_, carries_line (θ[j], φ[i], x)⟩
  rw [List.getElem?_map, hrow]
  rfl

end Table

/-! ## Peaks -/

theorem mapPeak_eq_reject_iff :
    mapPeak θ φ g = reject .gainShape ↔ g.shape ≠ [φ.length, θ.length] := by
  rw [mapPeak]
  split
  · next h =>
    refine iff_of_false ?_ (not_not.mpr h)
    split
    · nofun
    · split <;> nofun
  · next h => exact iff_of_true rfl h

/-- The peak of a map is the point with the least index at which there is a top entry: one that is
not a number, or, if all are numbers, the greatest. -/
structure IsFirstPeak (θ φ : List Float) (g : Tensor Float) (i : Fin φ.length) (j : Fin θ.length)
    (x : Float) : Prop where
  found : mapPeak θ φ g = .ok (⟨θ[j], φ[i]⟩, x)
  cell : g.cell? i j = some x
  least : IsLeast {k | ∃ y, g.toList[k]? = some y ∧ Binary64.IsTop g.toList y} (i * θ.length + j)

theorem exists_isFirstPeak (hθ : 0 < θ.length) (hφ : 0 < φ.length)
    (hshape : g.shape = [φ.length, θ.length]) :
    ∃ (i : Fin φ.length) (j : Fin θ.length) (x : Float), IsFirstPeak θ φ g i j x := by
  have hlength := Tensor.length_toList_of_shape hshape
  obtain ⟨⟨k, x⟩, hpeak⟩ : ∃ p, peak? g.toList = some p := by
    cases hlist : g.toList with
    | nil =>
      rw [hlist] at hlength
      exact absurd hlength.symm (Nat.mul_pos hφ hθ).ne'
    | cons y rest => exact ⟨_, rfl⟩
  obtain ⟨hentry, hleast⟩ := Binary64.isLeast_of_peak? hpeak
  have hk : k < φ.length * θ.length := hlength ▸ (List.getElem?_eq_some_iff.mp hentry).1
  -- the index is taken apart as it was put together
  have hi : k / θ.length < φ.length := (Nat.div_lt_iff_lt_mul hθ).mpr hk
  have hj : k % θ.length < θ.length := Nat.mod_lt k hθ
  have hsplit : k / θ.length * θ.length + k % θ.length = k := Nat.div_add_mod' k θ.length
  refine ⟨⟨_, hi⟩, ⟨_, hj⟩, x, ?_, ?_, ?_⟩
  · rw [mapPeak, if_pos hshape, hpeak]
    simp only [List.getElem?_eq_getElem hi, List.getElem?_eq_getElem hj]
    rfl
  · rw [Tensor.cell?_eq_getElem? hshape]
    exact (congrArg (g.toList[·]?) hsplit).trans hentry
  · exact hsplit.symm ▸ hleast

/-! ## Sweeps -/

/-- A sweep of doubles has its gains in the order of the grid. -/
theorem PhasedArray.eq_gridMap_of_sweep {a : PhasedArray Float} {ws : List (Phasor Float)}
    {map : Tensor Float} (h : a.sweep ws θ φ = .ok map) :
    map = gridMap (a.sweepGain a.points ws) θ φ := by
  rw [PhasedArray.sweep_eq_gridMap] at h
  obtain ⟨vs, hweights, h⟩ := exists_of_bind_eq_ok h
  obtain ⟨_, -, h⟩ := exists_of_bind_eq_ok h
  obtain ⟨-, hvs⟩ := PhasedArray.weights_eq_ok.mp hweights
  cases h
  rw [hvs]

/-! ## The common order -/

/-- The rows of a grid are the points in the common order, with the angles brought into their
ranges. -/
structure IsOrderedGrid (θ φ : List Float) (directions : List (Direction Float)) : Prop where
  length : directions.length = φ.length * θ.length
  point (i : Fin φ.length) (j : Fin θ.length) :
    directions[i * θ.length + j]? = some (Direction.normalized ⟨θ[j], φ[i]⟩)
  inRange (i : Fin φ.length) (j : Fin θ.length) :
    (Direction.normalized (⟨θ[j], φ[i]⟩ : Direction Float)).InRange

/-- The entries of a sweep are the gains in the directions of the grid, in the common order. -/
structure IsOrderedSweep (θ φ : List Float) (a : PhasedArray Float) (ws : List (Phasor Float))
    (map : Tensor Float) : Prop where
  shape : map.shape = [φ.length, θ.length]
  gain (i : Fin φ.length) (j : Fin θ.length) : map.toList[i * θ.length + j]?
    = some (a.sweepGain a.points ws (Direction.normalized ⟨θ[j], φ[i]⟩))

/-- Grids, sweeps, tables and peaks have one order. Tables and peaks are refused for their shape
exactly where it is not the one of the grid. -/
structure HasOneOrder (θ φ : List Float) : Prop where
  grid : ∃ directions, grid? θ φ = .ok directions ∧ IsOrderedGrid θ φ directions
  sweep (a : PhasedArray Float) (ws : List (Phasor Float)) (map : Tensor Float) :
    a.sweep ws θ φ = .ok map → IsOrderedSweep θ φ a ws map
  table_refused (g : Tensor Float) :
    Table.rows θ φ g = reject .gainShape ↔ g.shape ≠ [φ.length, θ.length]
  table (g : Tensor Float) : g.shape = [φ.length, θ.length] →
    ∃ rows samples, Table.IsOrdered θ φ g rows samples
  peak_refused (g : Tensor Float) :
    mapPeak θ φ g = reject .gainShape ↔ g.shape ≠ [φ.length, θ.length]
  peak (g : Tensor Float) : g.shape = [φ.length, θ.length] →
    ∃ (i : Fin φ.length) (j : Fin θ.length) (x : Float), IsFirstPeak θ φ g i j x

/-- Any inclinations and azimuths that are finite, at least one of each, have one order. -/
theorem grid_order (hθ : 0 < θ.length) (hφ : 0 < φ.length)
    (hfinite : ∀ x ∈ θ ++ φ, x.isFinite = true) : HasOneOrder θ φ := by
  have hfiniteθ : ∀ x ∈ θ, x.isFinite = true := fun x hx => hfinite x (List.mem_append_left _ hx)
  have hfiniteφ : ∀ x ∈ φ, x.isFinite = true := fun x hx => hfinite x (List.mem_append_right _ hx)
  have hgrid : grid? θ φ = .ok (grid θ φ) := grid?_of_isFinite
    (Bool.and_eq_true_iff.mpr ⟨List.all_eq_true.mpr hfiniteθ, List.all_eq_true.mpr hfiniteφ⟩)
  constructor
  case grid =>
    exact ⟨_, hgrid, length_grid θ φ, getElem?_grid θ φ, fun i j => Direction.inRange_normalized
      (hfiniteθ _ (List.getElem_mem _)) (hfiniteφ _ (List.getElem_mem _))⟩
  case sweep =>
    intro a ws map hsweep
    obtain rfl := PhasedArray.eq_gridMap_of_sweep hsweep
    refine ⟨shape_gridMap _ θ φ, fun i j => ?_⟩
    rw [toList_gridMap, List.getElem?_map, getElem?_grid]
    rfl
  case table_refused => exact fun g => Table.rows_eq_reject_iff
  case table => exact fun g hshape => Table.exists_isOrdered hshape
  case peak_refused => exact fun g => mapPeak_eq_reject_iff
  case peak => exact fun g hshape => exists_isFirstPeak hθ hφ hshape

/-- Two inclinations and one azimuth beyond half a turn, with a map of a third and what is not a
number. The lines of its table are read: the first one carries a third with ten digits. The same
entries in a column are refused. -/
theorem grid_order_pair :
    let third := Binary64.ofQuotient false 1 3
    let map : Tensor Float := ⟨[2, 1], #[third, Binary64.nan], rfl⟩
    (∀ x ∈ [0, 1] ++ [7], Float.isFinite x = true) ∧
      (∃ directions, grid? [(0 : Float), 1] [7] = .ok directions ∧ directions.length = 2 ∧
        directions[1]? = some (Direction.normalized ⟨1, 7⟩) ∧
        (Direction.normalized (⟨1, 7⟩ : Direction Float)).InRange) ∧
      Table.text [(0, 7, third), (1, 7, Binary64.nan)]
        = "theta_rad,phi_rad,gain_db\n0,7,0.3333333333\n1,7,nan\n" ∧
      Table.Carries "0,7,0.3333333333".toList (0, 7, third) ∧
      Table.Carries "1,7,nan".toList (1, 7, Binary64.nan) ∧
      ("0,7,0.3333333333".toList.splitOn ',').map Decimal.spelled?
        = [some (.decimal false ⟨0, 0⟩), some (.decimal false ⟨7, 0⟩),
            some (.decimal false ⟨3333333333, -10⟩)] ∧
      mapPeak [(0 : Float), 1] [7] map = .ok (⟨1, 7⟩, Binary64.nan) ∧
      mapPeak [(0 : Float), 1] [7] ⟨[1, 2], #[third, Binary64.nan], rfl⟩ = reject .gainShape := by
  intro third map
  have hfinite : ∀ x ∈ [0, 1] ++ [7], Float.isFinite x = true := by decide +kernel
  have horder : HasOneOrder [0, 1] [7] := grid_order (by decide) (by decide) hfinite
  obtain ⟨directions, hgrid, hordered⟩ := horder.grid
  obtain ⟨rows, samples, htable⟩ := horder.table map rfl
  obtain ⟨i, j, x, hpeak⟩ := horder.peak map rfl
  have hrows : [(0, 7, third), (1, 7, Binary64.nan)] = rows := by
    cases htable.rows_eq
    rfl
  subst hrows
  have htext : Table.text [(0, 7, third), (1, 7, Binary64.nan)]
      = "theta_rad,phi_rad,gain_db\n0,7,0.3333333333\n1,7,nan\n" := by decide +kernel
  have hsplit : "theta_rad,phi_rad,gain_db\n0,7,0.3333333333\n1,7,nan\n".toList.splitOn '\n'
      = Table.heading.toList :: ["0,7,0.3333333333".toList, "1,7,nan".toList] ++ [[]] := by
    decide +kernel
  have hsamples : ["0,7,0.3333333333".toList, "1,7,nan".toList] = samples := by
    have hlines := htable.lines
    rw [htext, hsplit] at hlines
    exact List.append_cancel_right (List.cons.inj hlines).2
  subst hsamples
  have hfirst : Table.Carries "0,7,0.3333333333".toList (0, 7, third) := by
    obtain ⟨y, sample, -, hrow, hsample, hcarries⟩ := htable.sample 0 0
    cases hrow
    cases hsample
    exact hcarries
  have hsecond : Table.Carries "1,7,nan".toList (1, 7, Binary64.nan) := by
    obtain ⟨y, sample, -, hrow, hsample, hcarries⟩ := htable.sample 0 1
    cases hrow
    cases hsample
    exact hcarries
  refine ⟨hfinite, ⟨directions, hgrid, hordered.length, hordered.point 0 1, hordered.inRange 0 1⟩,
    htext, hfirst, hsecond, by decide +kernel, ?_, (horder.peak_refused _).mpr (by decide)⟩
  obtain ⟨y, hy, htop⟩ := hpeak.least.1
  have hany : [third, Binary64.nan].any Float.isNaN = true := by decide +kernel
  have hnan : y.isNaN = true := (if_pos hany).mp htop
  have hfound := hpeak.found
  have hcell := hpeak.cell
  match i, j with
  | 0, 0 =>
    cases hy
    exact absurd hnan (by decide +kernel)
  | 0, 1 =>
    cases hcell
    exact hfound

end AntennaArray
