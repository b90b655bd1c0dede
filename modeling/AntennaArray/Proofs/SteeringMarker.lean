import AntennaArray.Proofs.Binary64.Elementary
import AntennaArray.Proofs.Binary64.Infinities
import AntennaArray.Simulation

/-!
# The marker of a direction on a map

A map draws each sample at the angles of the sweep in degrees, as they are. The marker of a
direction stands at the angles in degrees after they were brought into their ranges. So the marker
of the direction of a sample stands on that sample exactly where both angles are in their ranges
(`View.exists_draws_marker_iff`). That the two are apart everywhere else is seen at the ends of the
ranges: degrees are monotone in radians, and the two neighbouring doubles at an end are still apart
in degrees (`Angle.IsSeam`). The sweeps of the program start out of the range, at `-π`
(`Simulation.marker_ne_degrees_of_head`).
-/

namespace AntennaArray

/-! ## Neighbours -/

namespace Binary64

variable {x low high : Float}

/-- No double is between two neighbours: up to some number of units all are rounded to the first one
or below, and from the next number on all are rounded to the second one or above. -/
def AreNeighbours (low high : Float) : Prop :=
  ∃ middle, units? low = some (roundUnits middle) ∧ units? high = some (roundUnits (middle + 1))

theorem AreNeighbours.le_or_le (h : AreNeighbours low high) (hx : x.isFinite = true) :
    x ≤ low ∨ high ≤ x := by
  obtain ⟨middle, hlow, hhigh⟩ := h
  obtain ⟨a, ha, -⟩ := isFinite_iff.mp hx
  have hself : roundUnits a = a := roundUnits_of_units? hx ha
  rcases Int.lt_or_le middle a with hlt | hle
  · exact .inr (le_iff.mpr ⟨_, a, hhigh, ha, hself ▸ roundUnits_mono hlt⟩)
  · exact .inl (le_iff.mpr ⟨a, _, ha, hlow, hself ▸ roundUnits_mono hle⟩)

/-- The greatest double below zero. -/
def greatestNegative : Float := Float.ofBits 0x8000000000000001

end Binary64

/-! ## Ends of the ranges -/

namespace Angle

open Binary64

variable {x y low high : Float}

theorem toDegrees_le_toDegrees (hx : x.isFinite = true) (hy : y.isFinite = true) (h : x ≤ y) :
    toDegrees x ≤ toDegrees y :=
  mul_le_mul_right hx hy (by decide) h (by decide)

/-- Two neighbours that are still apart in degrees. -/
structure IsSeam (low high : Float) : Prop where
  low_finite : low.isFinite = true
  high_finite : high.isFinite = true
  neighbours : AreNeighbours low high
  lt : low < high
  degrees : toDegrees low < toDegrees high

/-- The doubles around zero, `π` and `-π`. -/
theorem areNeighbours_ends : AreNeighbours greatestNegative Scalar.zero ∧
    AreNeighbours Scalar.pi 3.1415926535897936 ∧
      AreNeighbours (-Scalar.pi) (-3.1415926535897927) := by
  have hunits :
      (units? greatestNegative = some (roundUnits (-1)) ∧
        units? Scalar.zero = some (roundUnits (-1 + 1))) ∧
      (units? Scalar.pi = some (roundUnits ((2 * 7074237752028440 + 1) * 2 ^ 1022)) ∧
        units? 3.1415926535897936
          = some (roundUnits ((2 * 7074237752028440 + 1) * 2 ^ 1022 + 1))) ∧
      units? (-Scalar.pi) = some (roundUnits (-(2 * 7074237752028439 + 1) * 2 ^ 1022)) ∧
        units? (-3.1415926535897927)
          = some (roundUnits (-(2 * 7074237752028439 + 1) * 2 ^ 1022 + 1)) := by
    decide +kernel
  exact ⟨⟨_, hunits.1⟩, ⟨_, hunits.2.1⟩, ⟨_, hunits.2.2⟩⟩

theorem isSeam_zero : IsSeam greatestNegative Scalar.zero where
  low_finite := by decide
  high_finite := by decide
  neighbours := areNeighbours_ends.1
  lt := by decide
  degrees := by decide

theorem isSeam_pi : IsSeam Scalar.pi 3.1415926535897936 where
  low_finite := by decide
  high_finite := by decide
  neighbours := areNeighbours_ends.2.1
  lt := by decide
  degrees := by decide

theorem isSeam_neg_pi : IsSeam (-Scalar.pi) (-3.1415926535897927) where
  low_finite := by decide
  high_finite := by decide
  neighbours := areNeighbours_ends.2.2
  lt := by decide
  degrees := by decide

section Sides

variable (h : IsSeam low high) (hx : x.isFinite = true) (hy : y.isFinite = true)

include h hx

/-- What is above the first double of a seam is on the side of the second one. -/
theorem IsSeam.high_le (hlt : low < x) : high ≤ x :=
  (h.neighbours.le_or_le hx).resolve_left fun hle => Binary64.not_lt_of_le hle hlt

include hy

/-- Angles on different sides of a seam are apart in degrees. -/
theorem IsSeam.toDegrees_ne (hlow : x ≤ low) (hhigh : high ≤ y) : toDegrees x ≠ toDegrees y := by
  have hlt : toDegrees x < toDegrees y :=
    calc toDegrees x ≤ toDegrees low := toDegrees_le_toDegrees hx h.low_finite hlow
      _ < toDegrees high := h.degrees
      _ ≤ toDegrees y := toDegrees_le_toDegrees h.high_finite hy hhigh
  intro heq
  exact Binary64.lt_irrefl _ (heq ▸ hlt)

/-- Angles that are equal in degrees are on one side. -/
theorem IsSeam.le_low_of_eq (heq : toDegrees x = toDegrees y) (hlow : x ≤ low) : y ≤ low :=
  (h.neighbours.le_or_le hy).resolve_right fun hhigh => h.toDegrees_ne hx hy hlow hhigh heq

theorem IsSeam.high_le_of_eq (heq : toDegrees x = toDegrees y) (hhigh : high ≤ x) : high ≤ y :=
  (h.neighbours.le_or_le hy).resolve_left fun hlow => h.toDegrees_ne hy hx hlow hhigh heq.symm

end Sides

end Angle

/-! ## Directions in degrees -/

namespace Direction

open Binary64 Angle

variable {d : Direction Float}

/-- A direction with both angles in their ranges stays. -/
theorem InRange.normalized_eq (h : d.InRange) : d.normalized = d := by
  have hclamp : clamp d.theta = d.theta := by
    have hlow : Scalar.lt d.theta Scalar.zero = false :=
      decide_eq_false (Binary64.not_lt_of_le h.theta.1)
    have hhigh : Scalar.lt Scalar.pi d.theta = false :=
      decide_eq_false (Binary64.not_lt_of_le h.theta.2)
    simp [clamp, Scalar.clip, hlow, hhigh]
  have hwrapped : isWrapped d.phi = true :=
    Bool.and_eq_true_iff.mpr ⟨decide_eq_true h.phi.1, decide_eq_true h.phi.2⟩
  rw [normalized, hclamp, wrap_of_isWrapped hwrapped]

theorem InRange.isFinite (h : d.InRange) : d.theta.isFinite = true ∧ d.phi.isFinite = true :=
  ⟨isFinite_of_le_of_le (by decide) (by decide) h.theta.1 h.theta.2,
    isFinite_of_le_of_le (by decide) (by decide) (Binary64.le_of_lt h.phi.1) h.phi.2⟩

/-- A direction keeps its degrees exactly where both angles are in their ranges. -/
theorem degrees_normalized_eq_iff (hθ : d.theta.isFinite = true) (hφ : d.phi.isFinite = true) :
    d.normalized.degrees = d.degrees ↔ d.InRange := by
  have hrange : d.normalized.InRange := inRange_normalized hθ hφ
  obtain ⟨hθ', hφ'⟩ := hrange.isFinite
  constructor
  · intro h
    obtain ⟨htheta, hphi⟩ := Prod.mk.inj h
    have habove := isSeam_neg_pi.high_le_of_eq hφ' hφ hphi (isSeam_neg_pi.high_le hφ' hrange.phi.1)
    exact ⟨⟨isSeam_zero.high_le_of_eq hθ' hθ htheta hrange.theta.1,
        isSeam_pi.le_low_of_eq hθ' hθ htheta hrange.theta.2⟩,
      calc -Scalar.pi < -3.1415926535897927 := isSeam_neg_pi.lt
        _ ≤ d.phi := habove,
      isSeam_pi.le_low_of_eq hφ' hφ hphi hrange.phi.2⟩
  · intro h
    rw [h.normalized_eq]

end Direction

/-! ## Maps -/

namespace View

section

variable {α : Type} [Scalar α] {rows columns : ℕ} {gain : Tensor α}

/-- A gain map has a row for each azimuth and a column for each inclination, or it is a plain list
of that length. -/
def IsMapOf (rows columns : ℕ) (gain : Tensor α) : Prop :=
  gain.shape = [rows, columns] ∨ gain.shape = [rows * columns]

omit [Scalar α] in
/-- A map of the right shape is put into rows. -/
theorem exists_shaped (h : IsMapOf rows columns gain) :
    ∃ z, shaped rows columns gain = .ok z ∧ z.shape = [rows, columns] := by
  rcases h with h | h
  · exact ⟨gain, by simp [shaped, h], h⟩
  · have haxes : gain.axes = [rows * columns] := List.reverse_eq_iff.mp h
    have hlength : gain.toList.length = volume [rows, columns].reverse := by
      rw [Tensor.length_toList, haxes]
      simp [volume, Nat.mul_comm]
    let z : Tensor α := ⟨[rows, columns].reverse, gain.toList.toArray, by simpa using hlength⟩
    have hwhole : Tensor.ofShape? [rows, columns] gain.toList = some z := dif_pos hlength
    refine ⟨z, ?_, rfl⟩
    simp only [shaped, h, hwhole, Option.getD_some]
    exact if_pos rfl

/-- A map draws the sample in a row and a column at a place. -/
def GainMap.Draws (m : GainMap α) (row column : ℕ) (place : α × α) : Prop :=
  m.x[column]? = some place.1 ∧ m.y[row]? = some place.2

theorem draws_iff {z : Tensor α} {θ φ : List α} (i : Fin φ.length) (j : Fin θ.length)
    (place : α × α) : (⟨degrees θ, degrees φ, z⟩ : GainMap α).Draws i j place ↔
      place = Direction.degrees ⟨θ.get j, φ.get i⟩ := by
  simp [GainMap.Draws, degrees, Direction.degrees, Prod.ext_iff, eq_comm]

/-- A map with a sample has a greatest drawn gain. -/
theorem exists_height {m : GainMap α} (h : m.z.toList ≠ []) : ∃ top, height m = .ok top := by
  rw [height]
  cases hlist : m.z.toList with
  | nil => exact absurd hlist h
  | cons g rest => exact ⟨_, rfl⟩

end

/-- The map of a sweep over finite angles is drawn, and so is its surface if there is a sample. The
marker of the direction of a sample stands where the map draws the sample if and only if both angles
of the sweep are in their ranges. -/
theorem exists_draws_marker_iff {θ φ : List Float} {gain : Tensor Float}
    (hθ : ∀ t ∈ θ, t.isFinite = true) (hφ : ∀ p ∈ φ, p.isFinite = true)
    (hgain : IsMapOf φ.length θ.length gain) (floor : Option Float) :
    ∃ m, gainMap Binary64.nan θ φ gain floor = .ok m ∧
      ∀ (i : Fin φ.length) (j : Fin θ.length), (∃ top, height m = .ok top) ∧
        (m.Draws i j (marker ⟨θ.get j, φ.get i⟩) ↔ Direction.InRange ⟨θ.get j, φ.get i⟩) := by
  obtain ⟨z, hz, hshape⟩ := exists_shaped hgain
  refine ⟨⟨degrees θ, degrees φ, z.map (drawn Binary64.nan floor)⟩, ?_, fun i j => ⟨?_, ?_⟩⟩
  · rw [gainMap, hz, ok_bind]
    rfl
  · refine exists_height fun hempty => ?_
    have hcount : z.toList.length = φ.length * θ.length := Tensor.length_toList_of_shape hshape
    have hsome : 0 < φ.length * θ.length := Nat.mul_pos i.pos j.pos
    rw [Tensor.toList_map, List.map_eq_nil_iff] at hempty
    rw [hempty, List.length_nil] at hcount
    omega
  · rw [draws_iff, marker]
    exact Direction.degrees_normalized_eq_iff (hθ _ (List.get_mem θ j)) (hφ _ (List.get_mem φ i))

/-- A map over one inclination with the first azimuth of a sweep and the one ahead, as rows. -/
def backAndFront : Tensor Float := ⟨[1, 2], #[0, 1], by decide⟩

/-- The sample ahead has its marker, the one at the back has not. -/
theorem exists_draws_marker_iff_front :
    (∀ t ∈ [Binary64.rightAngle], t.isFinite = true) ∧
      (∀ p ∈ [-Scalar.pi, (0 : Float)], p.isFinite = true) ∧ IsMapOf 2 1 backAndFront ∧
      ∃ m, gainMap Binary64.nan [Binary64.rightAngle] [-Scalar.pi, 0] backAndFront none = .ok m ∧
        m.Draws 1 0 (marker ⟨Binary64.rightAngle, 0⟩) ∧
        ¬m.Draws 0 0 (marker ⟨Binary64.rightAngle, -Scalar.pi⟩) := by
  have hθ : ∀ t ∈ [Binary64.rightAngle], t.isFinite = true := by decide
  have hφ : ∀ p ∈ [-Scalar.pi, (0 : Float)], p.isFinite = true := by decide
  have hgain : IsMapOf 2 1 backAndFront := .inl rfl
  obtain ⟨m, hm, hdraws⟩ := exists_draws_marker_iff hθ hφ hgain none
  refine ⟨hθ, hφ, hgain, m, hm, (hdraws 1 0).2.mpr ⟨by decide, by decide⟩, fun hback => ?_⟩
  exact absurd ((hdraws 0 0).2.mp hback).phi.1 (by decide)

/-- A sweep may start at `-π`. The sample there is drawn at `-180` degrees, and its marker stands at
`180` degrees. -/
theorem not_draws_marker_back :
    Binary64.rightAngle.isFinite = true ∧ (-Scalar.pi : Float).isFinite = true ∧
      ∃ m, gainMap Binary64.nan [Binary64.rightAngle] [-Scalar.pi] ⟨[1, 1], #[0], by decide⟩ none
          = .ok m ∧
        m.x = [90] ∧ m.y = [-180] ∧ marker ⟨Binary64.rightAngle, -Scalar.pi⟩ = (90, 180) ∧
        ¬m.Draws 0 0 (marker ⟨Binary64.rightAngle, -Scalar.pi⟩) := by
  have hplaces : (degrees [Binary64.rightAngle] : List Float) = [90] ∧
      (degrees [-Scalar.pi] : List Float) = [-180] ∧
      marker (⟨Binary64.rightAngle, -Scalar.pi⟩ : Direction Float) = (90, 180) := by
    decide +kernel
  obtain ⟨hx, hy, hmarker⟩ := hplaces
  refine ⟨by decide, by decide, _, rfl, hx, hy, hmarker, ?_⟩
  rintro ⟨-, hrow⟩
  rw [hmarker] at hrow
  exact absurd (hy ▸ hrow : ([-180] : List Float)[0]? = some 180) (by decide)

end View

/-! ## The first azimuth of a sweep -/

namespace Binary64

variable {x y : Float}

/-- Nothing is left of a finite double that is multiplied by zero. -/
theorem units?_zero_mul (hy : y.isFinite = true) : units? (Scalar.ofInt 0 * y) = some 0 := by
  obtain ⟨b, hb, -⟩ := isFinite_iff.mp hy
  have hzero : units? (Scalar.ofInt 0 : Float) = some 0 := by decide
  rw [units?_mul (by decide) hy hzero hb, zero_mul, roundRatio, Int.sign_zero, zero_mul]

/-- A positive whole number is not below one. -/
theorem one_le_of_units?_ofInt {n : ℕ} {b : ℤ} (hn : 0 < n)
    (hb : units? (Scalar.ofInt (n : ℤ)) = some b) : (unitsOf 1 0 : ℤ) ≤ b := by
  have hsign : decide ((n : ℤ) < 0) = false := decide_eq_false (by omega)
  have hround : units? (round false n 0) = some b := by
    rw [← hb, ← hsign]
    rfl
  rw [units?_round_eq_roundUnits false n (by decide), Option.some.injEq] at hround
  have hone : roundUnits (unitsOf 1 0) = unitsOf 1 0 :=
    roundUnits_of_units? (x := 1) (by decide) units?_one
  have hle : unitsOf 1 0 ≤ unitsOf n 0 := Nat.mul_le_mul_right _ hn
  calc (unitsOf 1 0 : ℤ) = roundUnits (unitsOf 1 0) := hone.symm
    _ ≤ roundUnits (unitsOf n 0) := roundUnits_mono (by exact_mod_cast hle)
    _ = b := hround

/-- No quotient by a positive whole number overflows. -/
theorem isFinite_div_ofInt {n : ℕ} (hx : x.isFinite = true) (hx0 : 0 ≤ x) (hn : 0 < n)
    (hfinite : (Scalar.ofInt (n : ℤ) : Float).isFinite = true) :
    (x / Scalar.ofInt (n : ℤ)).isFinite = true := by
  obtain ⟨a, ha, hlt⟩ := isFinite_iff.mp hx
  obtain ⟨b, hb, -⟩ := isFinite_iff.mp hfinite
  have ha0 : 0 ≤ a := units?_nonneg hx0 ha
  have hone : (unitsOf 1 0 : ℤ) ≤ b := one_le_of_units?_ofInt hn hb
  have hpos : 0 < unitsOf 1 0 := unitsOf_pos one_pos 0
  have hnum : 0 ≤ a * (unitsOf 1 0 : ℕ) := Int.mul_nonneg ha0 (Int.natCast_nonneg _)
  have hle : unitsOf 1 0 ≤ b.natAbs := by omega
  have hlow := roundRatio_nonneg (hpos.trans_le hle) hnum
  have hhigh := roundRatio_anti hpos hnum hle
  have hsign : b.sign = 1 := Int.sign_eq_one_of_pos (by omega)
  have hne : b ≠ 0 := by omega
  have hquotient := units?_div_eq_roundRatio hx hfinite ha hb hne
  rw [hsign, mul_one, ← unitsOf_one] at hquotient
  rw [roundRatio_mul hpos, roundUnits_of_units? hx ha] at hhigh
  exact isFinite_iff.mpr ⟨_, hquotient, by omega⟩

end Binary64

namespace Simulation

open Binary64

/-- A sweep of the program starts at `-π`, which is no azimuth in its range. So no direction with
that azimuth has its marker where the map draws it. -/
theorem marker_ne_degrees_of_head {count : ℕ} (h : 0 < count)
    (hfinite : (Scalar.ofInt (count : ℤ) : Float).isFinite = true) :
    ∃ φ, (azimuths count : List Float)[0]? = some φ ∧
      ∀ θ : Float, θ.isFinite = true → View.marker ⟨θ, φ⟩ ≠ Direction.degrees ⟨θ, φ⟩ := by
  have hpi : (Scalar.pi : Float).isFinite = true := by decide
  have hstep : (Scalar.ofInt 2 * Scalar.pi / Scalar.ofInt (count : ℤ) : Float).isFinite = true :=
    isFinite_div_ofInt (by decide) (by decide) h hfinite
  obtain ⟨p, hp, hlt⟩ := isFinite_iff.mp hpi
  have hneg : units? (-Scalar.pi : Float) = some (-p) := by rw [units?_neg, hp, Option.map_some]
  obtain ⟨φ, hfirst⟩ : ∃ φ : Float, Scalar.ofInt 0 *
      (Scalar.ofInt 2 * Scalar.pi / Scalar.ofInt (count : ℤ)) - Scalar.pi = φ := ⟨_, rfl⟩
  have hstart : units? φ = some (-p) := by
    have hzero := units?_zero_mul hstep
    rw [← hfirst, units?_sub (isFinite_iff.mpr ⟨0, hzero, infinityUnits_pos⟩) hpi hzero hp,
      zero_sub, roundUnits_neg, roundUnits_of_units? hpi hp]
  refine ⟨φ, by simp [azimuths, h, hfirst], fun θ hθ hplace => ?_⟩
  have hφ : φ.isFinite = true := isFinite_iff.mpr ⟨-p, hstart, by rwa [Int.natAbs_neg]⟩
  have hrange : Direction.InRange ⟨θ, φ⟩ :=
    (Direction.degrees_normalized_eq_iff (d := ⟨θ, φ⟩) hθ hφ).mp hplace
  exact absurd (units?_lt hrange.phi.1 hneg hstart) (lt_irrefl _)

end Simulation

end AntennaArray
