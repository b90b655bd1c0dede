import AntennaArray.Proofs.AngleRanges
import AntennaArray.Proofs.ExactElements

/-!
# Patterns with a single lobe

A parabolic pattern and a sector pattern lose the gain along two clamped parabolas, and their sum is
clamped again. Whatever the order of the limits, a direction enters by two numbers alone: how far it
is off the horizontal plane after its inclination was clamped, and how far off the orientation after
its azimuth was wrapped. The gain falls off as either grows (`parabolicGain_anti`). That makes one
lobe (`IsLobe.of_anti`): bounds, symmetries and periods follow, the seam at `±π` included.
-/

namespace AntennaArray

open Scalar

/-! ## Lobes -/

/-- The gain is greatest in the horizontal plane along an azimuth. It is the same on both sides of
the plane and of the azimuth and after a full turn, and it never grows on the way out. -/
structure IsLobe (gain : Direction ℝ → WithBot ℝ) (top : WithBot ℝ) (azimuth : ℝ) : Prop where
  le_top : ∀ d, gain d ≤ top
  top_eq : ∀ n : ℤ, gain ⟨Real.pi / 2, azimuth + n * (2 * Real.pi)⟩ = top
  turn : ∀ θ φ (n : ℤ), gain ⟨θ, φ + n * (2 * Real.pi)⟩ = gain ⟨θ, φ⟩
  mirror_phi : ∀ θ φ, gain ⟨θ, 2 * azimuth - φ⟩ = gain ⟨θ, φ⟩
  mirror_theta : ∀ θ φ, gain ⟨Real.pi - θ, φ⟩ = gain ⟨θ, φ⟩
  anti_theta : ∀ θ θ' φ, |θ - Real.pi / 2| ≤ |θ' - Real.pi / 2| → gain ⟨θ', φ⟩ ≤ gain ⟨θ, φ⟩
  anti_phi : ∀ θ φ φ', |Angle.wrap (φ - azimuth)| ≤ |Angle.wrap (φ' - azimuth)| →
    gain ⟨θ, φ'⟩ ≤ gain ⟨θ, φ⟩

namespace Direction

/-- How far a direction is off the horizontal plane. -/
noncomputable def offPlane (d : Direction ℝ) : ℝ := |Angle.clamp d.theta - pi / ofInt 2|

/-- How far a direction is off an azimuth. -/
noncomputable def offAzimuth (azimuth : ℝ) (d : Direction ℝ) : ℝ :=
  |Angle.wrap (d.phi - azimuth)|

theorem offPlane_eq (d : Direction ℝ) : d.offPlane = min |d.theta - Real.pi / 2| (Real.pi / 2) := by
  rw [← Angle.abs_clamp_sub_half_pi, offPlane, pi_real, ofInt_real, Int.cast_ofNat]

end Direction

/-- Gains that fall off in both ways from the top make a lobe. -/
theorem IsLobe.of_anti {gain : Direction ℝ → WithBot ℝ} {top : WithBot ℝ} {azimuth : ℝ}
    (htop : gain ⟨Real.pi / 2, azimuth⟩ = top)
    (hanti : ∀ d d' : Direction ℝ, d.offPlane ≤ d'.offPlane →
      d.offAzimuth azimuth ≤ d'.offAzimuth azimuth → gain d' ≤ gain d) :
    IsLobe gain top azimuth := by
  have hsame (d d' : Direction ℝ) (hplane : d.offPlane = d'.offPlane)
      (hazimuth : d.offAzimuth azimuth = d'.offAzimuth azimuth) : gain d = gain d' :=
    le_antisymm (hanti d' d hplane.ge hazimuth.ge) (hanti d d' hplane.le hazimuth.le)
  have hturn (θ φ : ℝ) (n : ℤ) : gain ⟨θ, φ + n * (2 * Real.pi)⟩ = gain ⟨θ, φ⟩ := by
    refine hsame _ _ rfl ?_
    have hshift : φ + n * (2 * Real.pi) - azimuth = φ - azimuth + n * (2 * Real.pi) := by ring
    rw [Direction.offAzimuth, Direction.offAzimuth, hshift, Angle.wrap_add_turns]
  refine ⟨fun d => ?_, fun n => (hturn _ _ n).trans htop, hturn, fun θ φ => ?_, fun θ φ => ?_,
    fun θ θ' φ h => ?_, fun θ φ φ' h => hanti _ _ le_rfl h⟩
  · rw [← htop]
    apply hanti
    · rw [Direction.offPlane_eq, sub_self, abs_zero, min_eq_left Real.pi_div_two_pos.le]
      exact abs_nonneg _
    · rw [Direction.offAzimuth, sub_self, Angle.wrap_zero, abs_zero]
      exact abs_nonneg _
  · refine hsame _ _ rfl ?_
    have hopposite : 2 * azimuth - φ - azimuth = -(φ - azimuth) := by ring
    rw [Direction.offAzimuth, Direction.offAzimuth, hopposite, Angle.abs_wrap_neg]
  · refine hsame _ _ ?_ rfl
    have hopposite : Real.pi - θ - Real.pi / 2 = -(θ - Real.pi / 2) := by ring
    rw [Direction.offPlane_eq, Direction.offPlane_eq, hopposite, abs_neg]
  · refine hanti _ _ ?_ le_rfl
    rw [Direction.offPlane_eq, Direction.offPlane_eq]
    exact min_le_min_right _ h

section

variable {gain : Direction ℝ → WithBot ℝ} {top : WithBot ℝ} {azimuth side : ℝ}

/-- On either side of the azimuth the gain is that on the one. -/
theorem IsLobe.side_phi (h : IsLobe gain top azimuth) (hside : side ∈ ({1, -1} : Set ℝ))
    (θ x : ℝ) : gain ⟨θ, azimuth + side * x⟩ = gain ⟨θ, azimuth + x⟩ := by
  rcases hside with rfl | rfl
  · rw [one_mul]
  · have hopposite : azimuth + -1 * x = 2 * azimuth - (azimuth + x) := by ring
    rw [hopposite, h.mirror_phi]

/-- On either side of the horizontal plane the gain is that on the one. -/
theorem IsLobe.side_theta (h : IsLobe gain top azimuth) (hside : side ∈ ({1, -1} : Set ℝ))
    (x φ : ℝ) : gain ⟨Real.pi / 2 + side * x, φ⟩ = gain ⟨Real.pi / 2 + x, φ⟩ := by
  rcases hside with rfl | rfl
  · rw [one_mul]
  · have hopposite : Real.pi / 2 + -1 * x = Real.pi - (Real.pi / 2 + x) := by ring
    rw [hopposite, h.mirror_theta]

end

/-! ## Losses along parabolas -/

namespace Angle

theorem toDegrees_real (x : ℝ) : toDegrees x = x * (180 / Real.pi) := by simp [toDegrees]

theorem abs_toDegrees (x : ℝ) : |toDegrees x| = toDegrees |x| := by
  have hpos : (0 : ℝ) < 180 / Real.pi := div_pos (by norm_num) Real.pi_pos
  rw [toDegrees_real, toDegrees_real, abs_mul, abs_of_pos hpos]

theorem toDegrees_mono {x y : ℝ} (h : x ≤ y) : toDegrees x ≤ toDegrees y := by
  have hpos : (0 : ℝ) ≤ 180 / Real.pi := div_nonneg (by norm_num) Real.pi_pos.le
  rw [toDegrees_real, toDegrees_real]
  exact mul_le_mul_of_nonneg_right h hpos

/-- The horizontal plane is at ninety degrees. -/
theorem toDegrees_sub_ninety (x : ℝ) :
    toDegrees x - ofInt 90 = toDegrees (x - pi / ofInt 2) := by
  have hpi := Real.pi_ne_zero
  rw [toDegrees_real, toDegrees_real, ofInt_real, ofInt_real, pi_real]
  push_cast
  field_simp
  ring

end Angle

namespace Radiator

/-- What is lost along one parabola, up to a limit. -/
def loss {α : Type} [Scalar α] (limit width angle : α) : α :=
  minimum limit (ofInt 12 * square (angle / width))

theorem attenuation_eq {α : Type} [Scalar α] (limit width angle : α) :
    attenuation limit width angle = -loss limit width angle := rfl

variable {limit width : ℝ}

theorem loss_real (limit width angle : ℝ) :
    loss limit width angle = min limit (12 * (angle / width) ^ 2) := by
  simp [loss]

theorem loss_zero (h : 0 ≤ limit) (width : ℝ) : loss limit width 0 = 0 := by
  rw [loss_real, zero_div, zero_pow two_ne_zero, mul_zero, min_eq_right h]

/-- The loss grows with the size of the angle. -/
theorem loss_mono {x y : ℝ} (h : |x| ≤ |y|) : loss limit width x ≤ loss limit width y := by
  have hquotient : |x / width| ≤ |y / width| := by
    rw [abs_div, abs_div]
    exact div_le_div_of_nonneg_right h (abs_nonneg width)
  have hsquare : (x / width) ^ 2 ≤ (y / width) ^ 2 := sq_le_sq.mpr hquotient
  rw [loss_real, loss_real]
  exact min_le_min_left _ (by linarith)

variable {p : ParabolicPattern ℝ}

noncomputable def totalLoss (p : ParabolicPattern ℝ) (d : Direction ℝ) : ℝ :=
  loss p.sideLobeAttenuation p.vertical (Angle.toDegrees (Angle.clamp d.theta - pi / ofInt 2))
    + loss p.maxAttenuation p.horizontal (Angle.toDegrees (Angle.wrap (d.phi - p.orientation)))

theorem parabolicGain_eq (p : ParabolicPattern ℝ) (d : Direction ℝ) :
    parabolicGain p d = p.maxGain - min p.maxAttenuation (totalLoss p d) := by
  rw [parabolicGain, minimum_real, attenuation_eq, attenuation_eq, ← neg_add, neg_neg, totalLoss,
    ← Angle.toDegrees_sub_ninety]
  rfl

theorem totalLoss_mono {d d' : Direction ℝ} (hplane : d.offPlane ≤ d'.offPlane)
    (hazimuth : d.offAzimuth p.orientation ≤ d'.offAzimuth p.orientation) :
    totalLoss p d ≤ totalLoss p d' := by
  refine add_le_add (loss_mono ?_) (loss_mono ?_)
  · rw [Angle.abs_toDegrees, Angle.abs_toDegrees]
    exact Angle.toDegrees_mono hplane
  · rw [Angle.abs_toDegrees, Angle.abs_toDegrees]
    exact Angle.toDegrees_mono hazimuth

/-- The gain falls off on the way out of the plane and on the way off the orientation. -/
theorem parabolicGain_anti {d d' : Direction ℝ} (hplane : d.offPlane ≤ d'.offPlane)
    (hazimuth : d.offAzimuth p.orientation ≤ d'.offAzimuth p.orientation) :
    parabolicGain p d' ≤ parabolicGain p d := by
  rw [parabolicGain_eq, parabolicGain_eq]
  exact sub_le_sub_left (min_le_min_left _ (totalLoss_mono hplane hazimuth)) _

/-- Nothing is lost along the orientation. -/
theorem parabolicGain_top (hmax : 0 ≤ p.maxAttenuation) (hside : 0 ≤ p.sideLobeAttenuation) :
    parabolicGain p ⟨Real.pi / 2, p.orientation⟩ = p.maxGain := by
  have hmem : Real.pi / 2 ∈ Set.Icc 0 Real.pi :=
    ⟨Real.pi_div_two_pos.le, half_le_self Real.pi_pos.le⟩
  have hzero : Angle.toDegrees (0 : ℝ) = 0 := by rw [Angle.toDegrees_real, zero_mul]
  have hplane : Angle.clamp (Real.pi / 2) - pi / ofInt 2 = 0 := by
    rw [Angle.clamp_of_mem hmem, pi_real, ofInt_real, Int.cast_ofNat, sub_self]
  rw [parabolicGain_eq, totalLoss, hplane, sub_self, Angle.wrap_zero, hzero, loss_zero hside,
    loss_zero hmax, add_zero, min_eq_right hmax, sub_zero]

/-- No more is lost than the greatest attenuation. -/
theorem sub_le_parabolicGain (p : ParabolicPattern ℝ) (d : Direction ℝ) :
    p.maxGain - p.maxAttenuation ≤ parabolicGain p d := by
  rw [parabolicGain_eq]
  exact sub_le_sub_left (min_le_left _ _) _

/-- A parabolic pattern makes a lobe along its orientation. -/
theorem isLobe_parabolic (hmax : 0 ≤ p.maxAttenuation) (hside : 0 ≤ p.sideLobeAttenuation) :
    IsLobe (Radiator.parabolic p).gain (p.maxGain : ℝ) p.orientation := by
  refine .of_anti ?_ fun d d' hplane hazimuth => ?_
  · exact congrArg WithBot.some (parabolicGain_top hmax hside)
  · exact WithBot.coe_le_coe.mpr (parabolicGain_anti hplane hazimuth)

end Radiator

/-! ## Parabolic and sector patterns -/

namespace Element

/-- A parabolic pattern makes a lobe along its orientation and a sector pattern one along the
horizontal axis, whose depth is the greatest attenuation, wherever their parameters are in the
ranges; those of a constructed element are. With equal parameters and no orientation the two
patterns are the same. -/
theorem isLobe_parabolic_and_sector :
    (∀ kind args e, construct kind args = .ok e → e.exact.IsAdmissible) ∧
    (∀ p : ParabolicPattern ℝ, (parabolic p).IsAdmissible →
      IsLobe (parabolic p).radiator.gain (p.maxGain : ℝ) (Angle.toRadians p.orientation) ∧
        ∀ d, ((p.maxGain - p.maxAttenuation : ℝ) : WithBot ℝ) ≤ (parabolic p).radiator.gain d) ∧
    (∀ s : SectorPattern ℝ, (sector s).IsAdmissible →
      IsLobe (sector s).radiator.gain (s.maxGain : ℝ) 0 ∧
        ∀ d, ((s.maxGain - s.maxAttenuation : ℝ) : WithBot ℝ) ≤ (sector s).radiator.gain d) ∧
    ∀ (horizontal vertical maxAttenuation sideLobe maxGain : ℝ) (d : Direction ℝ),
      ((sector ⟨vertical, horizontal, maxAttenuation, sideLobe, maxGain⟩).radiator.gain d
          : WithBot ℝ)
        = (parabolic ⟨horizontal, vertical, maxAttenuation, sideLobe, maxGain, 0⟩).radiator.gain
            d := by
  refine ⟨fun kind args e h => (isValid_construct h).isAdmissible, fun p h => ⟨?_, fun d => ?_⟩,
    fun s h => ⟨?_, fun d => ?_⟩, fun horizontal vertical maxAttenuation sideLobe maxGain d => ?_⟩
  · exact Radiator.isLobe_parabolic (p := { p with orientation := Angle.toRadians p.orientation })
      h.maxAttenuation h.sideLobeAttenuation
  · exact WithBot.coe_le_coe.mpr (Radiator.sub_le_parabolicGain
      { p with orientation := Angle.toRadians p.orientation } d)
  · have hlobe := Radiator.isLobe_parabolic (p := s.toParabolic) h.maxAttenuation
      h.sideLobeAttenuation
    rwa [show s.toParabolic.orientation = 0 from zero_real] at hlobe
  · exact WithBot.coe_le_coe.mpr (Radiator.sub_le_parabolicGain s.toParabolic d)
  · have hstraight : Angle.toRadians (0 : ℝ) = zero := by rw [zero_real, Angle.toRadians, zero_mul]
    rw [radiator, radiator, SectorPattern.toParabolic, hstraight]

/-- A pattern that looks backward, along the seam of the azimuths: its lobe is about `π`, so the top
is at `-π` too, and thirty decibels below it is the floor. -/
theorem isLobe_parabolic_and_sector_backward :
    (parabolic (⟨60, 90, 30, 0, 8, 180⟩ : ParabolicPattern ℝ)).IsAdmissible ∧
    IsLobe (parabolic (⟨60, 90, 30, 0, 8, 180⟩ : ParabolicPattern ℝ)).radiator.gain (8 : ℝ)
      Real.pi ∧
    (parabolic (⟨60, 90, 30, 0, 8, 180⟩ : ParabolicPattern ℝ)).radiator.gain
      ⟨Real.pi / 2, -Real.pi⟩ = (8 : ℝ) ∧
    ∀ d, ((-22 : ℝ) : WithBot ℝ)
      ≤ (parabolic (⟨60, 90, 30, 0, 8, 180⟩ : ParabolicPattern ℝ)).radiator.gain d := by
  have hadmissible : (parabolic (⟨60, 90, 30, 0, 8, 180⟩ : ParabolicPattern ℝ)).IsAdmissible :=
    ⟨by norm_num, by norm_num, by norm_num, by norm_num, by norm_num⟩
  obtain ⟨hlobe, hfloor⟩ := isLobe_parabolic_and_sector.2.1 _ hadmissible
  have hpi : Angle.toRadians (180 : ℝ) = Real.pi := by
    simp only [Angle.toRadians, ofInt_real, pi_real]
    push_cast
    ring
  simp only [hpi] at hlobe
  refine ⟨hadmissible, hlobe, ?_, fun d => ?_⟩
  · have htop := hlobe.top_eq (-1)
    rwa [show Real.pi + ((-1 : ℤ) : ℝ) * (2 * Real.pi) = -Real.pi by push_cast; ring] at htop
  · have hd := hfloor d
    rwa [show ((8 : ℝ) - 30) = -22 by norm_num] at hd

end Element

end AntennaArray
