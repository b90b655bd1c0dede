import AntennaArray.Gain
import AntennaArray.Proofs.Phasor
import AntennaArray.Proofs.Rotation

/-!
# Gains over the real numbers

The gain of an array in a direction is the level of its array factor plus the gain of one element in
the local direction: the polarization angle only splits the amplitude of an element into two
components, and a level and its amplitude are inverse to one another (`composite_eq`). A direction
enters by its unit vector alone (`composite_congr`).
-/

namespace AntennaArray

open Scalar

def Field.power {α : Type} [Scalar α] (f : Field α) : α := square f.phi + square f.theta

namespace PhasedArray

variable {a : PhasedArray ℝ} {d d' : Direction ℝ}

/-- The power with which an array with given weights multiplies that of one element. -/
def factor {α : Type} [Scalar α] (a : PhasedArray α) (ws : List (Phasor α)) (d : Direction α) : α :=
  square (Phasor.inner (a.steering d) ws).abs

/-- The amplitude of one element in a direction of space. -/
noncomputable def amplitude (a : PhasedArray ℝ) (d : Direction ℝ) : ℝ :=
  LevelScale.amplitude (a.radiator.gain (a.rotation.toLocal d) : WithBot ℝ)

/-- The polarization angle drops out of the power of an element. -/
theorem power_field (a : PhasedArray ℝ) (d : Direction ℝ) :
    (a.field d).power = a.amplitude d ^ 2 := by
  have hsplit : ∀ ψ : ℝ, (Real.sin ψ * a.amplitude d) ^ 2 + (Real.cos ψ * a.amplitude d) ^ 2
      = a.amplitude d ^ 2 := by
    intro ψ
    rw [mul_pow, mul_pow, ← add_mul, Real.sin_sq_add_cos_sq, one_mul]
  rw [← hsplit (a.rotation.polarizationAngle d), Field.power, square_real, square_real]
  rfl

theorem isProper_rotation (a : PhasedArray ℝ) : a.rotation.IsProper := by
  rw [rotation]
  cases a.placement with
  | panel p => exact Rotation.isProper_ofAngles p.bearing p.downtilt
  | points ps => exact Rotation.isProper_ofAngles zero zero

/-- Directions with one unit vector have one steering vector. -/
theorem steering_congr (h : d.vector = d'.vector) : a.steering d = a.steering d' := by
  rw [steering, steering, wave, wave, h]

/-- Directions with one unit vector have one element amplitude. -/
theorem amplitude_congr (h : d.vector = d'.vector) : a.amplitude d = a.amplitude d' := by
  rw [amplitude, amplitude, Rotation.toLocal_eq_direction a.isProper_rotation,
    Rotation.toLocal_eq_direction a.isProper_rotation, h]

end PhasedArray

namespace Gain

variable {a : PhasedArray ℝ} {d d' : Direction ℝ} {ws : List (Phasor ℝ)}

/-- The gain of one element of an array. -/
theorem element_field (a : PhasedArray ℝ) (d : Direction ℝ) :
    (element (a.field d) : Attempt (WithBot ℝ)) = .ok (LevelScale.ofPower (a.amplitude d ^ 2)) := by
  rw [← PhasedArray.power_field]
  rfl

/-- The gain of an array is defined where each entry has its weight. -/
theorem beamforming_eq_ok {α L : Type} [Scalar α] [LevelScale α L]
    {steering ws : List (Phasor α)} (h : steering.length = ws.length) :
    (beamforming steering ws : Attempt L) =
      .ok (LevelScale.ofPower (square (Phasor.inner steering ws).abs)) := by
  rw [beamforming, pairing, if_pos h]
  rfl

/-- The level of an array with as many weights as elements. -/
theorem composite_eq_ok (h : ws.length = a.size) :
    composite a d (some ws) = .ok
      ((LevelScale.ofPower (square (Phasor.inner (a.steering d) ws).abs) : WithBot ℝ)
        + LevelScale.ofPower (a.amplitude d ^ 2)) := by
  have hweights : a.weights ws = .ok ws := PhasedArray.weights_eq_ok.mpr ⟨h, rfl⟩
  have hlength : (a.steering d).length = ws.length := by simp [h]
  simp only [composite, hweights, element_field, ok_bind, beamforming_eq_ok hlength]
  rfl

/-- The gain of an array in terms of the array factor and the gain of one element. -/
theorem composite_eq (h : ws.length = a.size) :
    composite a d (some ws) = .ok
      ((LevelScale.ofPower (a.factor ws d) : WithBot ℝ)
        + a.radiator.gain (a.rotation.toLocal d)) := by
  rw [composite_eq_ok h, PhasedArray.amplitude, LevelScale.ofPower_amplitude_sq]
  rfl

/-- Without given weights those are taken that point the array in the direction. -/
theorem composite_none (a : PhasedArray ℝ) (d : Direction ℝ) :
    (composite a d none : Attempt (WithBot ℝ)) = composite a d (some (a.beam d)) := by
  have hweights : a.weights (a.beam d) = .ok (a.beam d) :=
    PhasedArray.weights_eq_ok.mpr ⟨PhasedArray.length_beam a d, rfl⟩
  simp only [composite, hweights]
  rfl

/-- A direction enters the gain by its unit vector alone. -/
theorem composite_congr (h : d.vector = d'.vector) :
    (composite a d (some ws) : Attempt (WithBot ℝ)) = composite a d' (some ws) := by
  rw [composite, composite, PhasedArray.steering_congr h, element_field, element_field,
    PhasedArray.amplitude_congr h]

end Gain

end AntennaArray
