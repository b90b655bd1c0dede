import AntennaArray.Placement
import AntennaArray.Proofs.Binary64.Quotients
import AntennaArray.Proofs.Outcome

/-!
# The spacing of given points

Points of their own are to be a least distance apart. Instead of their distances the program
compares the cells of a grid of that width to which they round. Points in one cell differ by hardly
more than the width in each coordinate (`Point.isBlurred_of_sharesCell`), but points on both sides
of a boundary may be as close as doubles are, and points at opposite corners of a cell may be
farther apart than the least distance. So the rule is kept for a table of points exactly where the
two ways of comparing agree on whether some pair is too close (`obeysSpacing_iff`).
-/

namespace AntennaArray

open Binary64

/-! ## Distances and cells -/

/-- The least distance that points are to have. -/
def Placement.leastDistance : ℚ := 1 / 10 ^ 9

namespace Point

variable (p q : Point Float)

def sqDistance : ℚ :=
  (value p.x - value q.x) ^ 2 + (value p.y - value q.y) ^ 2 + (value p.z - value q.z) ^ 2

noncomputable def exactDistance : ℝ := √(sqDistance p q)

/-- The points are less than the least distance apart. -/
def IsClose : Prop := exactDistance p q < Placement.leastDistance

/-- The points round to one cell of the grid. -/
def SharesCell : Prop := Placement.cell p = Placement.cell q

/-- The points have equal coordinates. -/
def IsSame : Prop := value p.x = value q.x ∧ value p.y = value q.y ∧ value p.z = value q.z

end Point

/-- Two coordinates differ by the width of the grid at most, and by what is lost when they are
divided by it. -/
def Placement.AreBlurred (x y : Float) : Prop :=
  |value x - value y| ≤ value gridWidth + (|value x| + |value y|) / 2 ^ 53

/-- In no coordinate do the points differ by more than the width of the grid. -/
def Point.IsBlurred (p q : Point Float) : Prop :=
  Placement.AreBlurred p.x q.x ∧ Placement.AreBlurred p.y q.y ∧ Placement.AreBlurred p.z q.z

namespace Placement

/-! ## Coordinates and their cells -/

/-- The coordinate is finite and so small that the program tells its cell. -/
def IsSmall (x : Float) : Prop := x.isFinite = true ∧ |value x| < 9200000000

/-- The width of the grid in units. -/
def gridUnits : ℕ := 4835703278458517 * 2 ^ 992

theorem gridUnits_pos : 0 < gridUnits := by
  rw [gridUnits]
  positivity

theorem units?_gridWidth : units? gridWidth = some (gridUnits : ℤ) := by decide +kernel

theorem units?_gridWidth_eq : units? gridWidth = some (4835703278458517 * 2 ^ 992) := by
  rw [units?_gridWidth, gridUnits, Nat.cast_mul, Nat.cast_pow, Nat.cast_ofNat, Nat.cast_ofNat]

theorem isFinite_gridWidth : (gridWidth : Float).isFinite = true :=
  isFinite_of_units? units?_gridWidth_eq (by decide) (by decide)

/-- The width of the grid is the double next to the least distance, which is a bit greater. -/
theorem value_gridWidth : value gridWidth = 4835703278458517 / 2 ^ 82 := by
  simpa using value_eq_div rfl units?_gridWidth_eq

theorem leastDistance_le : leastDistance ≤ value gridWidth := by
  rw [value_gridWidth, leastDistance]
  norm_num

theorem leastDistance_pos : 0 < leastDistance := by
  rw [leastDistance]
  norm_num

variable {x y : Float}

theorem IsSmall.isFinite_div (hx : IsSmall x) : (x / gridWidth).isFinite = true := by
  obtain ⟨hfinite, hsmall⟩ := hx
  obtain ⟨a, ha, -⟩ := isFinite_iff.mp hfinite
  rw [abs_value_eq ha, div_lt_iff₀ (by positivity)] at hsmall
  refine Binary64.isFinite_div hfinite isFinite_gridWidth ha units?_gridWidth gridUnits_pos
    (by decide : 1138 ≤ 2000) ?_
  have hnat : a.natAbs < 2 ^ 34 * 2 ^ 1074 := by
    have hlt : (a.natAbs : ℚ) < 2 ^ 34 * 2 ^ 1074 := by
      refine hsmall.trans_le (mul_le_mul_of_nonneg_right ?_ (by positivity))
      norm_num
    exact_mod_cast hlt
  calc a.natAbs * 2 ^ 1074 < 2 ^ 34 * 2 ^ 1074 * 2 ^ 1074 :=
        Nat.mul_lt_mul_of_pos_right hnat (by positivity)
    _ = 2 ^ 1138 * (2 ^ 52 * 2 ^ 992) := by simp only [← pow_add]
    _ ≤ 2 ^ 1138 * gridUnits :=
        Nat.mul_le_mul_left _ (Nat.mul_le_mul_right _ (by decide))

/-- Coordinates that are nearest to one multiple of the width are blurred. -/
theorem areBlurred_of_nearest_eq (hx : IsSmall x) (hy : IsSmall y)
    (h : nearest (x / gridWidth) = nearest (y / gridWidth)) : AreBlurred x y :=
  abs_value_sub_value_le hx.1 hy.1 isFinite_gridWidth units?_gridWidth gridUnits_pos
    hx.isFinite_div hy.isFinite_div h

/-- Equal coordinates are nearest to one multiple of the width. -/
theorem nearest_eq_of_value_eq (hx : IsSmall x) (hy : IsSmall y) (h : value x = value y) :
    nearest (x / gridWidth) = nearest (y / gridWidth) := by
  obtain ⟨a, ha, -⟩ := isFinite_iff.mp hx.1
  obtain ⟨b, hb, -⟩ := isFinite_iff.mp hy.1
  have hab : a = b := by
    rw [value_eq ha, value_eq hb, div_left_inj' (by positivity)] at h
    exact_mod_cast h
  rw [nearest_div hx.1 isFinite_gridWidth ha units?_gridWidth gridUnits_pos hx.isFinite_div,
    nearest_div hy.1 isFinite_gridWidth hb units?_gridWidth gridUnits_pos hy.isFinite_div, hab]

/-! ## Cells of points -/

end Placement

namespace Point

variable {p q : Point Float}

/-- All coordinates of the point are small. -/
def IsSmall (p : Point Float) : Prop :=
  Placement.IsSmall p.x ∧ Placement.IsSmall p.y ∧ Placement.IsSmall p.z

/-- Points in one cell are blurred. -/
theorem isBlurred_of_sharesCell (hp : p.IsSmall) (hq : q.IsSmall) (h : p.SharesCell q) :
    p.IsBlurred q := by
  rw [SharesCell, Placement.cell, Placement.cell, Prod.mk.injEq, Prod.mk.injEq] at h
  exact ⟨Placement.areBlurred_of_nearest_eq hp.1 hq.1 h.1,
    Placement.areBlurred_of_nearest_eq hp.2.1 hq.2.1 h.2.1,
    Placement.areBlurred_of_nearest_eq hp.2.2 hq.2.2 h.2.2⟩

/-- Equal points are in one cell. -/
theorem sharesCell_of_isSame (hp : p.IsSmall) (hq : q.IsSmall) (h : p.IsSame q) :
    p.SharesCell q := by
  rw [SharesCell, Placement.cell, Placement.cell, Prod.mk.injEq, Prod.mk.injEq]
  exact ⟨Placement.nearest_eq_of_value_eq hp.1 hq.1 h.1,
    Placement.nearest_eq_of_value_eq hp.2.1 hq.2.1 h.2.1,
    Placement.nearest_eq_of_value_eq hp.2.2 hq.2.2 h.2.2⟩

/-- Points are too close where the squares say so. -/
theorem isClose_iff : p.IsClose q ↔ p.sqDistance q < Placement.leastDistance ^ 2 := by
  have hpos : (0 : ℝ) < Placement.leastDistance := by exact_mod_cast Placement.leastDistance_pos
  rw [IsClose, exactDistance, Real.sqrt_lt' hpos]
  exact_mod_cast Iff.rfl

/-- Points that are too close are blurred. -/
theorem isBlurred_of_isClose (h : p.IsClose q) : p.IsBlurred q := by
  have hsq := isClose_iff.mp h
  have hblurred {x y : Float} (hle : (value x - value y) ^ 2 ≤ p.sqDistance q) :
      Placement.AreBlurred x y := by
    have habs := abs_lt_of_sq_lt_sq (hle.trans_lt hsq) Placement.leastDistance_pos.le
    have hwidth := habs.le.trans Placement.leastDistance_le
    have hlast : 0 ≤ (|value x| + |value y|) / 2 ^ 53 := by positivity
    rw [Placement.AreBlurred]
    linarith
  have hx := sq_nonneg (value p.x - value q.x)
  have hy := sq_nonneg (value p.y - value q.y)
  have hz := sq_nonneg (value p.z - value q.z)
  refine ⟨hblurred ?_, hblurred ?_, hblurred ?_⟩ <;>
  · rw [sqDistance]
    linarith

/-- Equal points are too close. -/
theorem isClose_of_isSame (h : p.IsSame q) : p.IsClose q := by
  have hsame : p.sqDistance q = 0 := by simp [sqDistance, h.1, h.2.1, h.2.2]
  rw [isClose_iff, hsame]
  exact pow_pos Placement.leastDistance_pos 2

end Point

/-! ## Tables of points -/

/-- Two different places of a list hold values in the given relation. -/
def SomePair {α : Type} (r : α → α → Prop) (xs : List α) : Prop :=
  ∃ (i j : ℕ) (x y : α), i ≠ j ∧ xs[i]? = some x ∧ xs[j]? = some y ∧ r x y

namespace SomePair

variable {α : Type} {r r' : α → α → Prop} {xs : List α}

theorem mono (h : SomePair r xs) (himp : ∀ x ∈ xs, ∀ y ∈ xs, r x y → r' x y) : SomePair r' xs := by
  obtain ⟨i, j, x, y, hne, hx, hy, hr⟩ := h
  exact ⟨i, j, x, y, hne, hx, hy,
    himp x (List.mem_of_getElem? hx) y (List.mem_of_getElem? hy) hr⟩

/-- Values that are related are related in another way too, if no two of them are in the first way
alone. -/
theorem of_not (h : SomePair r xs) (hnot : ¬SomePair (fun x y => r x y ∧ ¬r' x y) xs) :
    SomePair r' xs := by
  obtain ⟨i, j, x, y, hne, hx, hy, hr⟩ := h
  exact ⟨i, j, x, y, hne, hx, hy,
    by_contra fun hr' => hnot ⟨i, j, x, y, hne, hx, hy, hr, hr'⟩⟩

theorem pair_iff {x y : α} : SomePair r [x, y] ↔ r x y ∨ r y x := by
  constructor
  · rintro ⟨i, j, a, b, hne, ha, hb, hr⟩
    match i, j with
    | 0, 0 | 1, 1 => exact absurd rfl hne
    | 0, 1 =>
      cases ha
      cases hb
      exact .inl hr
    | 1, 0 =>
      cases ha
      cases hb
      exact .inr hr
    | i + 2, _ => simp at ha
    | _, j + 2 => simp at hb
  · rintro (hr | hr)
    · exact ⟨0, 1, x, y, by decide, rfl, rfl, hr⟩
    · exact ⟨1, 0, y, x, by decide, rfl, rfl, hr⟩

/-- The images of some values are all different where no two of them are equal. -/
theorem nodup_map_iff {β : Type} (f : α → β) :
    (xs.map f).Nodup ↔ ¬SomePair (fun x y => f x = f y) xs := by
  constructor
  · rintro hnodup ⟨i, j, x, y, hne, hx, hy, hf⟩
    have hi : i < (xs.map f).length := by
      rw [List.length_map]
      exact (List.getElem?_eq_some_iff.mp hx).1
    refine hne ((List.getElem?_inj hi hnodup).mp ?_)
    rw [List.getElem?_map, List.getElem?_map, hx, hy, Option.map_some, Option.map_some, hf]
  · intro h
    refine List.nodup_iff_getElem?_ne_getElem?.mpr fun i j hlt hj heq => h ?_
    rw [List.length_map] at hj
    have hi := hlt.trans hj
    refine ⟨i, j, xs[i], xs[j], hlt.ne, List.getElem?_eq_getElem hi,
      List.getElem?_eq_getElem hj, ?_⟩
    simpa [hi, hj] using heq

end SomePair

namespace Placement

theorem length_triples {α : Type} (xs : List α) : (triples xs).length = xs.length / 3 := by
  fun_induction triples xs with
  | case1 x y z rest ih =>
    simp only [List.length_cons, ih]
    omega
  | case2 xs hxs =>
    have hshort : xs.length < 3 := by
      by_contra hlong
      match xs, not_lt.mp hlong with
      | x :: y :: z :: rest, _ => exact hxs x y z rest rfl
    simp [Nat.div_eq_of_lt hshort]

theorem mem_of_mem_triples {α : Type} {p : Point α} {xs : List α} (h : p ∈ triples xs) :
    p.x ∈ xs ∧ p.y ∈ xs ∧ p.z ∈ xs := by
  fun_induction triples xs with
  | case1 x y z rest ih =>
    rcases List.mem_cons.mp h with rfl | hrest
    · simp
    · obtain ⟨hx, hy, hz⟩ := ih hrest
      simp [hx, hy, hz]
  | case2 xs hxs => cases h

/-- The rule that a table of points is refused exactly if two of them are too close. -/
def ObeysSpacing (t : Tensor Float) : Prop :=
  (IsRefused (ofTensor t) ↔ SomePair Point.IsClose (triples t.toList)) ∧
    (¬SomePair Point.IsClose (triples t.toList) → ∃ p, ofTensor t = .ok p)

variable {t : Tensor Float} {M : ℕ}

/-- Finite points are placed unless two of them are in one cell. -/
theorem ofTensor_eq (hshape : t.shape = [M, 3]) (hM : 1 ≤ M)
    (hfinite : ∀ x ∈ t.toList, x.isFinite = true) :
    ofTensor t = if ((triples t.toList).map cell).Nodup then .ok (.points (triples t.toList))
      else refuse .coincidentPoints := by
  have hsome : (triples t.toList).isEmpty = false := by
    rw [List.isEmpty_eq_false_iff, ← List.length_pos_iff, length_triples,
      Tensor.length_toList_of_shape hshape]
    omega
  have hbounded : (triples t.toList).all isBounded = true := by
    refine List.all_eq_true.mpr fun p hp => ?_
    obtain ⟨hx, hy, hz⟩ := mem_of_mem_triples hp
    simp only [isBounded, Bool.and_eq_true]
    exact ⟨⟨hfinite _ hx, hfinite _ hy⟩, hfinite _ hz⟩
  exact ofTensor_eq_ite hshape hsome hbounded

theorem nodup_cells_iff {ps : List (Point Float)} :
    (ps.map cell).Nodup ↔ ¬SomePair Point.SharesCell ps :=
  SomePair.nodup_map_iff cell

/-- Finite points are refused exactly if two of them are in one cell. -/
theorem isRefused_ofTensor_iff (hshape : t.shape = [M, 3]) (hM : 1 ≤ M)
    (hfinite : ∀ x ∈ t.toList, x.isFinite = true) :
    IsRefused (ofTensor t) ↔ SomePair Point.SharesCell (triples t.toList) := by
  rw [ofTensor_eq hshape hM hfinite]
  by_cases hcells : ((triples t.toList).map cell).Nodup
  · rw [if_pos hcells]
    exact iff_of_false (not_isRefused_ok _) (nodup_cells_iff.mp hcells)
  · rw [if_neg hcells]
    exact iff_of_true ⟨_, rfl⟩ (not_not.mp (mt nodup_cells_iff.mpr hcells))

/-- A table of points obeys the rule exactly where sharing a cell and being too close come to the
same; it does so if only equal points are blurred. -/
theorem obeysSpacing_iff (hshape : t.shape = [M, 3]) (hM : 1 ≤ M)
    (hsmall : ∀ x ∈ t.toList, IsSmall x) :
    (ObeysSpacing t ↔ (SomePair Point.SharesCell (triples t.toList) ↔
        SomePair Point.IsClose (triples t.toList))) ∧
      (∀ p ∈ triples t.toList, ∀ q ∈ triples t.toList, p.SharesCell q → p.IsBlurred q) ∧
      (¬SomePair (fun p q => p.IsBlurred q ∧ ¬p.IsSame q) (triples t.toList) →
        ObeysSpacing t) := by
  have hpoint {p : Point Float} (hp : p ∈ triples t.toList) : p.IsSmall := by
    obtain ⟨hx, hy, hz⟩ := mem_of_mem_triples hp
    exact ⟨hsmall _ hx, hsmall _ hy, hsmall _ hz⟩
  have hblurred : ∀ p ∈ triples t.toList, ∀ q ∈ triples t.toList,
      p.SharesCell q → p.IsBlurred q := fun p hp q hq =>
    Point.isBlurred_of_sharesCell (hpoint hp) (hpoint hq)
  have hplaced := ofTensor_eq hshape hM fun x hx => (hsmall x hx).1
  have hrefused := isRefused_ofTensor_iff hshape hM fun x hx => (hsmall x hx).1
  have hobeys : ObeysSpacing t ↔ (SomePair Point.SharesCell (triples t.toList) ↔
      SomePair Point.IsClose (triples t.toList)) := by
    rw [ObeysSpacing, hrefused, and_iff_left_of_imp]
    intro hagree hclose
    exact ⟨_, by rw [hplaced, if_pos (nodup_cells_iff.mpr (mt hagree.mp hclose))]⟩
  refine ⟨hobeys, hblurred, fun hnone => hobeys.mpr ⟨fun hcell => ?_, fun hclose => ?_⟩⟩
  · exact ((hcell.mono hblurred).of_not hnone).mono fun p _ q _ => Point.isClose_of_isSame
  · refine ((hclose.mono fun p _ q _ => Point.isBlurred_of_isClose).of_not hnone).mono ?_
    exact fun p hp q hq => Point.sharesCell_of_isSame (hpoint hp) (hpoint hq)

/-! ## Particular points -/

/-- Two points that are half a wavelength apart. -/
def halfWaveRows : Tensor Float := ⟨[3, 2], #[0, 0, 0, 0.5, 0, 0], by decide⟩

/-- Two points that are less than the least distance apart, on both sides of a boundary. -/
def closeRows : Tensor Float := ⟨[3, 2], #[0, 0, 0, 9e-10, 0, 0], by decide⟩

/-- Two points that are farther apart, in opposite corners of a cell. -/
def cornerRows : Tensor Float :=
  ⟨[3, 2], #[-4e-10, -4e-10, -4e-10, 4e-10, 4e-10, 4e-10], by decide⟩

/-- The units of the coordinates of these tables. -/
theorem units?_coordinates :
    units? 0 = some (0 * 2 ^ 1074) ∧ units? 0.5 = some (1 * 2 ^ 1073) ∧
      units? 9e-10 = some (4352132950612665 * 2 ^ 992) ∧
      units? 4e-10 = some (7737125245533627 * 2 ^ 990) ∧
      units? (-4e-10) = some (-7737125245533627 * 2 ^ 990) := by
  decide +kernel

theorem value_zero : value 0 = 0 := by
  simpa using value_eq_div (zero_add 1074).symm units?_coordinates.1

theorem value_half : value 0.5 = 1 / 2 := by
  simpa using value_eq_div rfl units?_coordinates.2.1

theorem value_close : value 9e-10 = 4352132950612665 / 2 ^ 82 := by
  simpa using value_eq_div rfl units?_coordinates.2.2.1

theorem value_corner : value 4e-10 = 7737125245533627 / 2 ^ 84 := by
  simpa using value_eq_div rfl units?_coordinates.2.2.2.1

theorem value_neg_corner : value (-4e-10) = -7737125245533627 / 2 ^ 84 := by
  simpa using value_eq_div rfl units?_coordinates.2.2.2.2

/-- All these coordinates are small. -/
theorem isSmall_coordinates :
    IsSmall 0 ∧ IsSmall 0.5 ∧ IsSmall 9e-10 ∧ IsSmall 4e-10 ∧ IsSmall (-4e-10) := by
  obtain ⟨hzero, hhalf, hclose, hcorner, hneg⟩ := units?_coordinates
  refine ⟨⟨isFinite_of_units? hzero (by decide) (by decide), ?_⟩,
    ⟨isFinite_of_units? hhalf (by decide) (by decide), ?_⟩,
    ⟨isFinite_of_units? hclose (by decide) (by decide), ?_⟩,
    ⟨isFinite_of_units? hcorner (by decide) (by decide), ?_⟩,
    ⟨isFinite_of_units? hneg (by decide) (by decide), ?_⟩⟩
  · norm_num [value_zero]
  · norm_num [value_half, abs_of_pos]
  · norm_num [value_close, abs_of_pos]
  · norm_num [value_corner, abs_of_pos]
  · norm_num [value_neg_corner, abs_of_pos]

/-- The close points are in cells of their own, and the corners are in one cell. -/
theorem nodup_cells :
    ((triples closeRows.toList).map cell).Nodup ∧
      ¬((triples cornerRows.toList).map cell).Nodup := by
  decide +kernel

/-- These points obey the rule, since they are not blurred. -/
theorem obeysSpacing_halfWaveRows :
    halfWaveRows.shape = [2, 3] ∧ 1 ≤ 2 ∧ (∀ x ∈ halfWaveRows.toList, IsSmall x) ∧
      ObeysSpacing halfWaveRows := by
  obtain ⟨hzero, hhalf, -⟩ := isSmall_coordinates
  have hlist : halfWaveRows.toList = [0, 0, 0, 0.5, 0, 0] := rfl
  have hsmall : ∀ x ∈ halfWaveRows.toList, IsSmall x := by
    simp only [hlist, List.forall_mem_cons]
    exact ⟨hzero, hzero, hzero, hhalf, hzero, hzero, by simp⟩
  refine ⟨rfl, by decide, hsmall, (obeysSpacing_iff rfl (by decide : 1 ≤ 2) hsmall).2.2 ?_⟩
  have hrows : triples halfWaveRows.toList = [⟨0, 0, 0⟩, ⟨0.5, 0, 0⟩] := rfl
  rw [hrows, SomePair.pair_iff]
  rintro (⟨hblurred, -⟩ | ⟨hblurred, -⟩) <;>
  · have hle := hblurred.1
    rw [AreBlurred, value_zero, value_half, value_gridWidth] at hle
    norm_num [abs_of_pos] at hle

/-- The first of these tables is accepted and the second one is refused, both against the rule. -/
theorem not_obeysSpacing :
    (∀ x ∈ closeRows.toList ++ cornerRows.toList, IsSmall x) ∧
      ¬ObeysSpacing closeRows ∧ ¬ObeysSpacing cornerRows := by
  have hsmall : ∀ x ∈ closeRows.toList ++ cornerRows.toList, IsSmall x := by
    obtain ⟨hzero, -, hclose, hcorner, hneg⟩ := isSmall_coordinates
    have hlist : closeRows.toList ++ cornerRows.toList
        = [0, 0, 0, 9e-10, 0, 0, -4e-10, -4e-10, -4e-10, 4e-10, 4e-10, 4e-10] := rfl
    simp only [hlist, List.forall_mem_cons]
    exact ⟨hzero, hzero, hzero, hclose, hzero, hzero, hneg, hneg, hneg, hcorner, hcorner,
      hcorner, by simp⟩
  refine ⟨hsmall, fun hobeys => ?_, fun hobeys => ?_⟩
  · have hrows : triples closeRows.toList = [⟨0, 0, 0⟩, ⟨9e-10, 0, 0⟩] := rfl
    have hrefused := isRefused_ofTensor_iff (t := closeRows) rfl (by decide : 1 ≤ 2) fun x hx =>
      (hsmall x (List.mem_append_left _ hx)).1
    refine nodup_cells_iff.mp nodup_cells.1 (hrefused.mp (hobeys.1.mpr ?_))
    rw [hrows, SomePair.pair_iff]
    left
    rw [Point.isClose_iff, Point.sqDistance, value_zero, value_close, leastDistance]
    norm_num
  · have hrows : triples cornerRows.toList
        = [⟨-4e-10, -4e-10, -4e-10⟩, ⟨4e-10, 4e-10, 4e-10⟩] := rfl
    have hrefused := isRefused_ofTensor_iff (t := cornerRows) rfl (by decide : 1 ≤ 2) fun x hx =>
      (hsmall x (List.mem_append_right _ hx)).1
    have hcell := not_not.mp (mt nodup_cells_iff.mpr nodup_cells.2)
    have hclose := hobeys.1.mp (hrefused.mpr hcell)
    rw [hrows, SomePair.pair_iff] at hclose
    rcases hclose with hclose | hclose <;>
    · rw [Point.isClose_iff, Point.sqDistance, value_corner, value_neg_corner, leastDistance]
        at hclose
      norm_num at hclose

end Placement

end AntennaArray
