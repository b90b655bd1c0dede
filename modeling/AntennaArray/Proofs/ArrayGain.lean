import Mathlib.Analysis.SpecialFunctions.Log.Base
import AntennaArray.Proofs.Gain

/-!
# The greatest gain of an array

Every entry of a steering vector has length one, so no weights of norm one give an array of `M`
elements more than `10 log₁₀ M`, and the weights that point the array in a direction give it exactly
that. The main statement, `composite_le_of_unit`, adds the gain of an element in its own frame.
-/

namespace AntennaArray

open Scalar

/-- The bearing and the downtilt of the elements; those at points of their own are not turned. -/
def Placement.orientation {α : Type} [Scalar α] : Placement α → α × α
  | .panel p => (p.bearing, p.downtilt)
  | .points _ => (zero, zero)

namespace PhasedArray

variable {a : PhasedArray ℝ} {ws : List (Phasor ℝ)}

theorem rotation_eq_ofAngles (a : PhasedArray ℝ) :
    a.rotation = .ofAngles a.placement.orientation.1 a.placement.orientation.2 := by
  rw [rotation]
  cases a.placement with
  | panel p => rfl
  | points ps => rfl

/-- Every entry of a steering vector has length one. -/
theorem abs_of_mem_steering (a : PhasedArray ℝ) (d : Direction ℝ) :
    ∀ s ∈ a.steering d, s.abs = 1 := by
  intro s hs
  obtain ⟨p, -, rfl⟩ := List.mem_map.mp hs
  exact Phasor.abs_cis _

/-- The energy of a steering vector is the number of elements. -/
theorem energy_steering (a : PhasedArray ℝ) (d : Direction ℝ) :
    Phasor.energy (a.steering d) = a.size := by
  rw [Phasor.energy_of_forall_abs_eq_one (a.abs_of_mem_steering d), length_steering]

/-- The array factor is at most the number of elements times the energy of the weights. -/
theorem factor_le (a : PhasedArray ℝ) (ws : List (Phasor ℝ)) (d : Direction ℝ) :
    a.factor ws d ≤ a.size * Phasor.energy ws := by
  rw [factor, square_real, ← energy_steering a d]
  exact Phasor.sq_abs_inner_le (a.steering d) ws

theorem factor_nonneg (a : PhasedArray ℝ) (ws : List (Phasor ℝ)) (d : Direction ℝ) :
    0 ≤ a.factor ws d := by
  rw [factor, square_real]
  exact sq_nonneg _

/-- The energy of a conjugated steering vector is the number of elements as well. -/
theorem energy_conj_steering (a : PhasedArray ℝ) (d : Direction ℝ) :
    Phasor.energy ((a.steering d).map Phasor.conj) = a.size := by
  rw [Phasor.energy_map_conj, energy_steering]

/-- The weights that point an array in a direction have norm one. -/
theorem norm_beam (h : 0 < a.size) (d : Direction ℝ) : Phasor.norm (a.beam d) = 1 := by
  have hsize : 0 < Phasor.energy ((a.steering d).map Phasor.conj) := by
    rw [energy_conj_steering]
    exact_mod_cast h
  rw [Phasor.norm_eq_sqrt_energy, beam, Phasor.energy_normalize hsize, Real.sqrt_one]

/-- Pointed in a direction, an array has its number of elements as array factor there. -/
theorem factor_beam (h : 0 < a.size) (d : Direction ℝ) : a.factor (a.beam d) d = a.size := by
  have hsize : (0 : ℝ) < a.size := by exact_mod_cast h
  have hinner : (Phasor.inner (a.steering d) (a.beam d)).toComplex = (√a.size : ℝ) := by
    rw [beam, Phasor.normalize, Phasor.toComplex_inner_map_shrink, Phasor.toComplex_inner_conj,
      Phasor.norm_eq_sqrt_energy, energy_conj_steering, energy_steering, ← Complex.ofReal_div,
      Real.div_sqrt]
  rw [factor, square_real, Phasor.abs_eq_norm, hinner, Complex.norm_real, Real.norm_eq_abs, sq_abs,
    Real.sq_sqrt hsize.le]

end PhasedArray

namespace Gain

variable {a : PhasedArray ℝ} {ws : List (Phasor ℝ)}

/-- The level that an array adds is that of its array factor. -/
theorem beamforming_steering (d : Direction ℝ) (h : ws.length = a.size) :
    beamforming (a.steering d) ws = .ok (LevelScale.ofPower (a.factor ws d) : WithBot ℝ) :=
  beamforming_eq_ok (by rw [h, PhasedArray.length_steering])

/-- Pointed in a direction, an array of `M` elements adds `10 log₁₀ M` there. -/
theorem ofPower_factor_beam (h : 0 < a.size) (d : Direction ℝ) :
    (LevelScale.ofPower (a.factor (a.beam d) d) : WithBot ℝ) =
      ((10 * Real.logb 10 a.size : ℝ) : WithBot ℝ) := by
  have hsize : (a.size : ℝ) ≠ 0 := by exact_mod_cast h.ne'
  rw [PhasedArray.factor_beam h, LevelScale.ofPower_of_ne_zero hsize]

/-- With weights of norm one, an array adds at most what it adds where it is pointed. -/
theorem ofPower_factor_le (h : 0 < a.size) (d : Direction ℝ) (hunit : Phasor.energy ws = 1) :
    (LevelScale.ofPower (a.factor ws d) : WithBot ℝ) ≤
      LevelScale.ofPower (a.factor (a.beam d) d) := by
  apply LevelScale.ofPower_le_ofPower (PhasedArray.factor_nonneg a ws d)
  calc a.factor ws d ≤ a.size * Phasor.energy ws := PhasedArray.factor_le a ws d
    _ = a.factor (a.beam d) d := by rw [hunit, mul_one, PhasedArray.factor_beam h]

/-- The weights that point an array in a direction have norm one and give it `10 log₁₀` of its
number of elements there; no other weights of norm one give it more, with or without the gain of an
element. -/
theorem composite_le_of_unit (a : PhasedArray ℝ) (d : Direction ℝ) (h : 0 < a.size) :
    let whole : WithBot ℝ := (10 * Real.logb 10 a.size : ℝ)
    let turned := Rotation.ofAngles a.placement.orientation.1 a.placement.orientation.2
    let own : WithBot ℝ := a.radiator.gain (turned.toLocal d)
    (Phasor.norm (a.beam d) = 1 ∧
      beamforming (a.steering d) (a.beam d) = .ok whole ∧
      composite a d none = .ok (whole + own)) ∧
    ∀ ws : List (Phasor ℝ), ws.length = a.size → (ws.map fun w => w.abs ^ 2).sum = 1 →
      (∃ g, beamforming (a.steering d) ws = .ok g ∧ g ≤ whole) ∧
      ∃ g, composite a d (some ws) = .ok g ∧ g ≤ whole + own := by
  intro whole turned own
  have hwhole : (LevelScale.ofPower (a.factor (a.beam d) d) : WithBot ℝ) = whole :=
    ofPower_factor_beam h d
  have hown : a.radiator.gain (a.rotation.toLocal d) = own := by
    rw [PhasedArray.rotation_eq_ofAngles]
  refine ⟨⟨PhasedArray.norm_beam h d, ?_, ?_⟩, ?_⟩
  · rw [beamforming_steering d (PhasedArray.length_beam a d), hwhole]
  · rw [composite_none, composite_eq (PhasedArray.length_beam a d), hwhole, hown]
  · intro ws hws hunit
    have hlevel : (LevelScale.ofPower (a.factor ws d) : WithBot ℝ) ≤ whole :=
      hwhole ▸ ofPower_factor_le h d hunit
    refine ⟨⟨_, beamforming_steering d hws, hlevel⟩, _, composite_eq hws, ?_⟩
    rw [hown]
    gcongr

/-- Two elements of which only the first one is weighted. -/
theorem composite_le_of_unit_pair :
    let a : PhasedArray ℝ := .of (.points [⟨0, 0, 0⟩, ⟨1 / 2, 0, 0⟩]) .isotropic
    a.size = 2 ∧ (([⟨1, 0⟩, ⟨0, 0⟩] : List (Phasor ℝ)).map fun w => w.abs ^ 2).sum = 1 ∧
      ∀ d : Direction ℝ, ∃ g : WithBot ℝ,
        composite a d (some [⟨1, 0⟩, ⟨0, 0⟩]) = .ok g ∧
          g ≤ (10 * Real.logb 10 2 : ℝ) + a.radiator.gain ((Rotation.ofAngles 0 0).toLocal d) := by
  intro a
  have hunit : (([⟨1, 0⟩, ⟨0, 0⟩] : List (Phasor ℝ)).map fun w => w.abs ^ 2).sum = 1 := by
    simp [Phasor.abs]
  refine ⟨rfl, hunit, fun d => ?_⟩
  obtain ⟨g, hg, hle⟩ := ((composite_le_of_unit a d Nat.two_pos).2 _ rfl hunit).2
  have hsize : (a.size : ℝ) = 2 := Nat.cast_two
  have horientation : a.placement.orientation = (0, 0) := by
    simp [a, PhasedArray.of, Placement.orientation]
  refine ⟨g, hg, ?_⟩
  simpa only [hsize, horientation] using hle

end Gain

end AntennaArray
