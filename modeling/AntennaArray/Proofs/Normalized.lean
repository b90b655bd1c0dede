import Mathlib.Analysis.SpecialFunctions.Log.Base
import AntennaArray.Proofs.AngleRanges
import AntennaArray.Proofs.Gain

/-!
# Angles out of their ranges

A gain is taken in the direction of the unit vector that two angles spell, whatever their ranges. To
bring an azimuth into its range changes no unit vector, but to clamp an inclination does, unless the
inclination spells the very pole to which it is clamped. So the gain of every array with every
weights is that of the normalized direction exactly where one of these holds
(`composite_normalized_iff`): two elements, well placed, tell any two unit vectors apart.
-/

namespace AntennaArray

open Scalar

namespace Direction

/-- Normalizing clamps the inclination of the unit vector, and changes nothing else of it. -/
theorem vector_normalized (d : Direction ℝ) :
    d.normalized.vector = Point.ofAngles (Angle.clamp d.theta) d.phi := by
  obtain ⟨n, hn⟩ := Angle.exists_wrap_eq d.phi
  simp only [vector, normalized, Point.ofAngles_real, hn, Real.cos_add_int_mul_two_pi,
    Real.sin_add_int_mul_two_pi]

/-- Normalizing keeps the unit vector exactly where the inclination is in its range or spells the
pole to which it is clamped. -/
theorem vector_normalized_eq_iff (d : Direction ℝ) :
    d.normalized.vector = d.vector ↔
      d.theta ∈ Set.Icc 0 Real.pi ∨ (d.theta < 0 ∧ Real.cos d.theta = 1) ∨
        (Real.pi < d.theta ∧ Real.cos d.theta = -1) := by
  rw [vector_normalized, vector]
  constructor
  · intro h
    have hheight : Real.cos (Angle.clamp d.theta) = Real.cos d.theta := by
      simpa only [Point.ofAngles_real] using congrArg Point.z h
    rcases lt_or_ge d.theta 0 with hneg | hnonneg
    · rw [Angle.clamp_of_neg hneg, Real.cos_zero] at hheight
      exact .inr (.inl ⟨hneg, hheight.symm⟩)
    · rcases lt_or_ge Real.pi d.theta with hover | hle
      · rw [Angle.clamp_of_pi_lt hover, Real.cos_pi] at hheight
        exact .inr (.inr ⟨hover, hheight.symm⟩)
      · exact .inl ⟨hnonneg, hle⟩
  · rintro (hmem | ⟨hneg, hcos⟩ | ⟨hover, hcos⟩)
    · rw [Angle.clamp_of_mem hmem]
    · have hsin : Real.sin d.theta = 0 := Real.sin_eq_zero_iff_cos_eq.mpr (.inl hcos)
      rw [Angle.clamp_of_neg hneg, Point.ofAngles_real, Point.ofAngles_real, hsin, hcos,
        Real.sin_zero, Real.cos_zero]
    · have hsin : Real.sin d.theta = 0 := Real.sin_eq_zero_iff_cos_eq.mpr (.inr hcos)
      rw [Angle.clamp_of_pi_lt hover, Point.ofAngles_real, Point.ofAngles_real, hsin, hcos,
        Real.sin_pi, Real.cos_pi]

end Direction

/-! ## Two elements -/

namespace Point

/-- The squared distance of two different points is positive. -/
theorem sq_dist_pos {u v : Point ℝ} (h : u ≠ v) :
    0 < (u.x - v.x) ^ 2 + (u.y - v.y) ^ 2 + (u.z - v.z) ^ 2 := by
  have hdiffer : u.x - v.x ≠ 0 ∨ u.y - v.y ≠ 0 ∨ u.z - v.z ≠ 0 := by
    by_contra hall
    simp only [not_or, not_not, sub_eq_zero] at hall
    apply h
    cases u
    cases v
    simp_all
  rcases hdiffer with hx | hy | hz
  · positivity
  · positivity
  · positivity

/-- The scalar products of two different points with a third one can have any difference. -/
theorem exists_dot_eq {u v : Point ℝ} (h : u ≠ v) (c : ℝ) :
    ∃ p : Point ℝ, p.dot u = p.dot v + c := by
  let r := c / ((u.x - v.x) ^ 2 + (u.y - v.y) ^ 2 + (u.z - v.z) ^ 2)
  have hr : r * ((u.x - v.x) ^ 2 + (u.y - v.y) ^ 2 + (u.z - v.z) ^ 2) = c :=
    div_mul_cancel₀ c (sq_dist_pos h).ne'
  refine ⟨⟨r * (u.x - v.x), r * (u.y - v.y), r * (u.z - v.z)⟩, ?_⟩
  simp only [dot_real]
  linear_combination hr

end Point

namespace PhasedArray

/-- Two elements without directivity, the first one at the origin. -/
noncomputable def pair (p : Point ℝ) : PhasedArray ℝ := of (.points [⟨0, 0, 0⟩, p]) .isotropic

/-- The array factor of two elements whose weights differ by a phase. -/
theorem factor_pair (p : Point ℝ) (t : ℝ) (d : Direction ℝ) :
    (pair p).factor [⟨1, 0⟩, .cis t] d
      = 2 + 2 * Real.cos (t - 2 * Real.pi * p.dot d.vector) := by
  have hsteering : (pair p).steering d = [.cis 0, .cis (-(2 * Real.pi * p.dot d.vector))] := by
    simp [steering, wave, front, points, pair, of, Placement.toPoints]
  have hone : (⟨1, 0⟩ : Phasor ℝ).toComplex = 1 := rfl
  have hinner : (Phasor.inner ((pair p).steering d) [⟨1, 0⟩, .cis t]).toComplex
      = 1 + Complex.exp ((t - 2 * Real.pi * p.dot d.vector : ℝ) * Complex.I) := by
    rw [hsteering, Phasor.toComplex_inner_cons, Phasor.toComplex_inner_cons,
      Phasor.toComplex_inner_nil_left, hone, Phasor.toComplex_cis, Phasor.toComplex_cis,
      Phasor.toComplex_cis, ← Complex.exp_add]
    push_cast
    ring_nf
    simp
  generalize t - 2 * Real.pi * p.dot d.vector = y at hinner ⊢
  rw [factor, square_real, Phasor.abs_eq_norm, hinner, Complex.sq_norm, Complex.normSq_apply,
    Complex.add_re, Complex.add_im, Complex.exp_ofReal_mul_I_re, Complex.exp_ofReal_mul_I_im,
    Complex.one_re, Complex.one_im]
  linear_combination Real.sin_sq_add_cos_sq y

/-- The gain of two elements whose weights differ by a phase. -/
theorem composite_pair (p : Point ℝ) (t : ℝ) (d : Direction ℝ) :
    (Gain.composite (pair p) d (some [⟨1, 0⟩, .cis t]) : Attempt (WithBot ℝ)) =
      .ok (LevelScale.ofPower (2 + 2 * Real.cos (t - 2 * Real.pi * p.dot d.vector))) := by
  have hisotropic : ((pair p).radiator.gain ((pair p).rotation.toLocal d) : WithBot ℝ) = 0 := by
    show ((zero : ℝ) : WithBot ℝ) = 0
    rw [zero_real, WithBot.coe_zero]
  have hlength : ([⟨1, 0⟩, .cis t] : List (Phasor ℝ)).length = (pair p).size := rfl
  rw [Gain.composite_eq hlength, hisotropic, add_zero, factor_pair]

/-- Two elements tell any two unit vectors apart: in one direction they radiate together, in the
other one they cancel. -/
theorem exists_composite_ne {d d' : Direction ℝ} (h : d.vector ≠ d'.vector) :
    ∃ (a : PhasedArray ℝ) (ws : List (Phasor ℝ)), ws.length = a.size ∧
      (Gain.composite a d (some ws) : Attempt (WithBot ℝ)) ≠ Gain.composite a d' (some ws) := by
  obtain ⟨p, hp⟩ := Point.exists_dot_eq h (1 / 2)
  refine ⟨pair p, [⟨1, 0⟩, .cis (2 * Real.pi * p.dot d.vector)], rfl, ?_⟩
  have htogether : 2 * Real.pi * p.dot d.vector - 2 * Real.pi * p.dot d.vector = 0 := sub_self _
  have hapart : 2 * Real.pi * p.dot d.vector - 2 * Real.pi * p.dot d'.vector = Real.pi := by
    rw [hp]
    ring
  have hsilent : (LevelScale.ofPower (2 + 2 * -1 : ℝ) : WithBot ℝ) = ⊥ :=
    LevelScale.ofPower_eq_bot.mpr (by norm_num)
  rw [composite_pair, composite_pair, htogether, hapart, Real.cos_zero, Real.cos_pi, hsilent]
  intro heq
  have hbot : (LevelScale.ofPower (2 + 2 * 1 : ℝ) : WithBot ℝ) = ⊥ := Except.ok.inj heq
  rw [LevelScale.ofPower_eq_bot] at hbot
  norm_num at hbot

end PhasedArray

namespace Gain

/-- A gain in a direction is the gain in the normalized direction, for every array and all weights,
exactly where the inclination is in its range or spells the pole to which it is clamped. -/
theorem composite_normalized_iff (d : Direction ℝ) :
    (∀ (a : PhasedArray ℝ) (ws : List (Phasor ℝ)), ws.length = a.size →
        (composite a d (some ws) : Attempt (WithBot ℝ)) = composite a d.normalized (some ws)) ↔
      d.theta ∈ Set.Icc 0 Real.pi ∨ (d.theta < 0 ∧ Real.cos d.theta = 1) ∨
        (Real.pi < d.theta ∧ Real.cos d.theta = -1) := by
  rw [← Direction.vector_normalized_eq_iff]
  constructor
  · intro h
    by_contra hne
    obtain ⟨a, ws, hws, hcomposite⟩ := PhasedArray.exists_composite_ne hne
    exact hcomposite (h a ws hws).symm
  · intro h a ws _
    exact composite_congr h.symm

/-- Two elements with equal weights, a quarter of a wavelength apart, give 3 dB at an inclination of
a right angle below zero, and 6 dB along the vertical axis, to which it is clamped. -/
theorem composite_ne_normalized :
    let a : PhasedArray ℝ := .of (.points [⟨0, 0, 0⟩, ⟨1 / 4, 0, 0⟩]) .isotropic
    let d : Direction ℝ := ⟨-(Real.pi / 2), 0⟩
    let ws : List (Phasor ℝ) := [⟨1, 0⟩, ⟨1, 0⟩]
    ws.length = a.size ∧
      (composite a d (some ws) : Attempt (WithBot ℝ)) = .ok (10 * Real.logb 10 2 : ℝ) ∧
      (composite a d.normalized (some ws) : Attempt (WithBot ℝ)) = .ok (10 * Real.logb 10 4 : ℝ) ∧
      (composite a d (some ws) : Attempt (WithBot ℝ)) ≠ composite a d.normalized (some ws) := by
  intro a d ws
  have hws : ws = [⟨1, 0⟩, .cis 0] := by simp [ws, Phasor.cis]
  have hdot : (⟨1 / 4, 0, 0⟩ : Point ℝ).dot d.vector = -(1 / 4) := by
    simp [d, Direction.vector, Point.ofAngles_real]
  have hdotNormalized : (⟨1 / 4, 0, 0⟩ : Point ℝ).dot d.normalized.vector = 0 := by
    have hneg : -(Real.pi / 2) < 0 := neg_lt_zero.mpr Real.pi_div_two_pos
    simp [d, Direction.vector_normalized, Point.ofAngles_real, Angle.clamp_of_neg hneg]
  have hangle : 0 - 2 * Real.pi * -(1 / 4) = Real.pi / 2 := by ring
  have hgain : (composite a d (some ws) : Attempt (WithBot ℝ)) = .ok (10 * Real.logb 10 2 : ℝ) := by
    rw [hws, show a = PhasedArray.pair ⟨1 / 4, 0, 0⟩ from rfl, PhasedArray.composite_pair, hdot,
      hangle, Real.cos_pi_div_two, mul_zero, add_zero, LevelScale.ofPower_of_ne_zero two_ne_zero]
  have hgainNormalized : (composite a d.normalized (some ws) : Attempt (WithBot ℝ))
      = .ok (10 * Real.logb 10 4 : ℝ) := by
    have hfour : (2 : ℝ) + 2 * 1 = 4 := by norm_num
    rw [hws, show a = PhasedArray.pair ⟨1 / 4, 0, 0⟩ from rfl, PhasedArray.composite_pair,
      hdotNormalized, mul_zero, sub_zero, Real.cos_zero, hfour,
      LevelScale.ofPower_of_ne_zero four_ne_zero]
  refine ⟨rfl, hgain, hgainNormalized, ?_⟩
  rw [hgain, hgainNormalized]
  intro heq
  have hlog : 10 * Real.logb 10 2 = 10 * Real.logb 10 4 := WithBot.coe_injective (Except.ok.inj heq)
  have hlt : Real.logb 10 2 < Real.logb 10 4 :=
    Real.logb_lt_logb (by norm_num) (by norm_num) (by norm_num)
  linarith

end Gain

end AntennaArray
