import AntennaArray.Proofs.AngleRanges
import AntennaArray.Proofs.Binary64.Wrapping

/-!
# Canonical angles

Of all angles that spell the same azimuth a direction keeps the one in `(-π, π]`, and its
inclination moves to the nearest one in `[0, π]`. Over the real numbers this fixes the normalized
direction (`Represents`), so normalizing is the same once and twice. In doubles it is so too, though
each step may round, and where an angle is infinite or no number at all (`normalized_canonical`).
-/

namespace AntennaArray

open Scalar

/-! ## Doubles that are not finite -/

namespace Angle

open Binary64 Float.Model

variable {θ φ : Float}

/-- An azimuth in its range is finite. -/
theorem isFinite_of_isWrapped (h : isWrapped φ = true) : φ.isFinite = true := by
  obtain ⟨hlow, hhigh⟩ := Bool.and_eq_true_iff.mp h
  obtain ⟨a, b, ha, hb, hlt⟩ := lt_iff.mp (of_decide_eq_true hlow)
  have hle : -Scalar.pi ≤ φ := le_iff.mpr ⟨a, b, ha, hb, hlt.le⟩
  exact isFinite_of_le_of_le (by decide) (by decide) hle (of_decide_eq_true hhigh)

/-- What is taken off a half turn leaves an infinity, or no number, if it is not finite itself. -/
theorem pi_sub_of_not_isFinite (h : φ.isFinite = false) :
    Scalar.pi - φ = nan ∨ Scalar.pi - φ = infinite true ∨ Scalar.pi - φ = infinite false := by
  change φ.toModel.unpack.isFinite = false at h
  have hsub : Scalar.pi - φ = .ofModel (pack (UnpackedFloat.sub Format.binary64
    (Scalar.pi : Float).toModel.unpack φ.toModel.unpack)) := rfl
  rw [hsub]
  cases hu : φ.toModel.unpack with
  | notANumber => exact .inl (by decide +kernel)
  | infinity s =>
    cases s with
    | positive => exact .inr (.inl (by decide +kernel))
    | negative => exact .inr (.inr (by decide +kernel))
  | zero s | finite s m e hm =>
    rw [hu] at h
    cases h

/-- An azimuth that is not finite wraps to what is no number. -/
theorem wrap_of_not_isFinite (h : φ.isFinite = false) : wrap φ = nan := by
  have hout : ¬isWrapped φ = true := fun hin => by
    rw [isFinite_of_isWrapped hin] at h
    cases h
  rw [wrap_eq_ite, if_neg hout, reduce]
  rcases pi_sub_of_not_isFinite h with hd | hd | hd
  · rw [hd]
    decide +kernel
  · rw [hd]
    decide +kernel
  · rw [hd]
    decide +kernel

/-- An infinite inclination is clamped to a bound. -/
theorem clamp_of_isInf (h : θ.isInf = true) :
    clamp θ = if θ < 0 then Scalar.zero else Scalar.pi := by
  obtain ⟨a, ha, hsize⟩ := isInf_iff.mp h
  have hpi : (Scalar.pi : Float).isFinite = true := by decide
  obtain ⟨b, hb, hbsize⟩ := isFinite_iff.mp hpi
  have hneg : θ < 0 ↔ a < 0 := by simp [lt_iff, ha, units?_zero]
  have hover : Scalar.pi < θ ↔ b < a := by simp [lt_iff, ha, hb]
  show (if decide (θ < 0) = true then Scalar.zero
    else if decide (Scalar.pi < θ) = true then Scalar.pi else θ) = _
  simp only [decide_eq_true_eq, hneg, hover]
  split
  · rfl
  · rw [if_pos (by omega)]

theorem wrap_wrap_double (φ : Float) : wrap (wrap φ) = wrap φ := by
  cases h : φ.isFinite with
  | true => exact wrap_of_isWrapped (isWrapped_wrap h)
  | false =>
    rw [wrap_of_not_isFinite h]
    exact wrap_of_not_isFinite (by decide)

end Angle

/-- Clipping between bounds in their order is the same once and twice, in any arithmetic. -/
theorem Scalar.clip_clip {α : Type} [Scalar α] {low high : α} (hlow : lt low low = false)
    (hhigh : lt high high = false) (h : lt high low = false) (x : α) :
    clip low high (clip low high x) = clip low high x := by
  by_cases hl : lt x low = true
  · simp [clip, hl, hlow, h]
  · by_cases hh : lt high x = true
    · simp [clip, hl, hh, hhigh, h]
    · simp [clip, hl, hh]

/-! ## Normalized directions -/

namespace Direction

/-- The canonical direction for two angles: the nearest inclination in `[0, π]`, and the only
azimuth in `(-π, π]` that differs by full turns. -/
structure Represents (c d : Direction ℝ) : Prop where
  theta_mem : c.theta ∈ Set.Icc 0 Real.pi
  theta_nearest : ∀ t ∈ Set.Icc 0 Real.pi, t ≠ c.theta → |c.theta - d.theta| < |t - d.theta|
  phi_mem : c.phi ∈ Set.Ioc (-Real.pi) Real.pi
  phi_turns : ∃ n : ℤ, c.phi - d.phi = n * (2 * Real.pi)
  phi_unique : ∀ x ∈ Set.Ioc (-Real.pi) Real.pi,
    (∃ n : ℤ, x - d.phi = n * (2 * Real.pi)) → x = c.phi

theorem represents_normalized (d : Direction ℝ) : d.normalized.Represents d where
  theta_mem := Angle.clamp_mem_Icc d.theta
  theta_nearest _ ht hne := Angle.abs_clamp_sub_lt ht hne
  phi_mem := Angle.wrap_mem_Ioc d.phi
  phi_turns := (Angle.wrap_eq_iff.mp rfl).2
  phi_unique _ hx hturns := (Angle.wrap_eq_iff.mpr ⟨hx, hturns⟩).symm

theorem normalized_normalized (d : Direction ℝ) : d.normalized.normalized = d.normalized := by
  have hθ : Angle.clamp (Angle.clamp d.theta) = Angle.clamp d.theta :=
    Angle.clamp_of_mem (Angle.clamp_mem_Icc d.theta)
  have hφ : Angle.wrap (Angle.wrap d.phi) = Angle.wrap d.phi :=
    Angle.wrap_of_isWrapped (Angle.isWrapped_real.mpr (Angle.wrap_mem_Ioc d.phi))
  rw [normalized, normalized, hθ, hφ]

theorem normalized_normalized_double (d : Direction Float) :
    d.normalized.normalized = d.normalized := by
  have hθ : Angle.clamp (Angle.clamp d.theta) = Angle.clamp d.theta :=
    clip_clip (by decide) (by decide) (by decide) d.theta
  rw [normalized, normalized, hθ, Angle.wrap_wrap_double]

/-- Normalizing finds the canonical direction over the real numbers: with azimuths that are the same
up to full turns it gives the same, an azimuth in its range is what the remainder makes of it, and
opposite azimuths stay opposite unless they end at `π`. To normalize again changes nothing, neither
there nor for any doubles; of these an infinite inclination moves to a bound, and an azimuth that is
not finite is no number any more. -/
theorem normalized_canonical :
    (∀ d : Direction ℝ, d.normalized.Represents d ∧ d.normalized.normalized = d.normalized) ∧
    (∀ (φ : ℝ) (n : ℤ), Angle.wrap (φ + n * (2 * Real.pi)) = Angle.wrap φ) ∧
    (∀ φ ∈ Set.Ioc (-Real.pi) Real.pi, Angle.wrap φ = φ ∧ Angle.reduce φ = φ) ∧
    (∀ φ : ℝ, Angle.wrap φ ≠ Real.pi → Angle.wrap (-φ) = -Angle.wrap φ) ∧
    (∀ d : Direction Float, d.normalized.normalized = d.normalized) ∧
    (∀ θ : Float, θ.isInf = true →
      Angle.clamp θ = if θ < 0 then Scalar.zero else Scalar.pi) ∧
    ∀ φ : Float, φ.isInf = true ∨ φ.isNaN = true → (Angle.wrap φ).isNaN = true := by
  refine ⟨fun d => ⟨d.represents_normalized, d.normalized_normalized⟩, Angle.wrap_add_turns, ?_, ?_,
    normalized_normalized_double, fun θ => Angle.clamp_of_isInf, ?_⟩
  · intro φ hφ
    have hwrap := Angle.wrap_of_isWrapped (Angle.isWrapped_real.mpr hφ)
    exact ⟨hwrap, (Angle.wrap_eq_reduce φ).symm.trans hwrap⟩
  · intro φ hφ
    rw [Angle.wrap_neg, if_neg hφ]
  · intro φ hφ
    have hout : φ.isFinite = false := by
      rw [← Bool.not_eq_true]
      intro hin
      rcases hφ with hinf | hnan
      · rw [Binary64.isInf_eq_false hin] at hinf
        cases hinf
      · obtain ⟨a, ha, -⟩ := Binary64.isFinite_iff.mp hin
        rw [Binary64.isNaN_eq_false_iff.mpr ⟨a, ha⟩] at hnan
        cases hnan
    rw [Angle.wrap_of_not_isFinite hout]
    decide

/-- Below the vertical axis and one and a half turns around, a direction keeps the axis and the
end of the range of the azimuths. -/
theorem normalized_canonical_outside :
    (⟨-1, 3 * Real.pi⟩ : Direction ℝ).normalized = ⟨0, Real.pi⟩ ∧
    (Angle.wrap (Binary64.infinite true)).isNaN = true := by
  have hpi := Real.pi_pos
  have hc := (normalized_canonical.1 ⟨-1, 3 * Real.pi⟩).1
  constructor
  · have hθ : (⟨-1, 3 * Real.pi⟩ : Direction ℝ).normalized.theta = 0 := by
      by_contra hne
      have hmem := hc.theta_mem
      have hnear := hc.theta_nearest 0 ⟨le_rfl, hpi.le⟩ (Ne.symm hne)
      rw [abs_of_pos (by linarith [hmem.1]), abs_of_pos (by norm_num)] at hnear
      linarith [hmem.1]
    have hφ : Real.pi = (⟨-1, 3 * Real.pi⟩ : Direction ℝ).normalized.phi :=
      hc.phi_unique Real.pi ⟨by linarith, le_rfl⟩ ⟨-1, by push_cast; ring⟩
    exact congrArg₂ Direction.mk hθ hφ.symm
  · exact normalized_canonical.2.2.2.2.2.2 _ (.inl (by decide))

end Direction

end AntennaArray
