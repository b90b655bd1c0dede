import Mathlib.Algebra.Order.ToIntervalMod
import AntennaArray.Angle
import AntennaArray.Proofs.Exact

/-!
# The ranges of angles over the real numbers

An azimuth wraps to the only angle in `(-π, π]` that differs from it by full turns
(`wrap_eq_toIocMod`): the remainder that is taken out of range leaves angles in range alone, and
never needs the repair at `-π`. An inclination is clamped to the nearest one in `[0, π]`
(`abs_clamp_sub_lt`).
-/

namespace AntennaArray

open Scalar

namespace Angle

/-! ## Azimuths -/

/-- The azimuth modulo a full turn, by the remainder that is taken where it is out of its range. -/
def reduce {α : Type} [Scalar α] (φ : α) : α :=
  let wrapped := pi - floorMod (pi - φ) turn
  if le wrapped (-pi) then pi else wrapped

theorem wrap_eq_ite {α : Type} [Scalar α] (φ : α) :
    wrap φ = if isWrapped φ then φ else reduce φ := rfl

@[simp] theorem turn_real : (turn : ℝ) = 2 * Real.pi := by simp [turn]

theorem isWrapped_real {φ : ℝ} : isWrapped φ = true ↔ φ ∈ Set.Ioc (-Real.pi) Real.pi := by
  simp [isWrapped]

/-- What is left of a division is not negative and less than the divisor. -/
theorem floorMod_mem_Ico (x : ℝ) {y : ℝ} (hy : 0 < y) : floorMod x y ∈ Set.Ico 0 y := by
  have hlow := Int.sub_floor_div_mul_nonneg x hy
  have hhigh := Int.sub_floor_div_mul_lt x hy
  rw [mul_comm] at hlow hhigh
  exact ⟨hlow, hhigh⟩

/-- The remainder never ends at `-π`. -/
theorem reduce_real (φ : ℝ) :
    reduce φ = Real.pi - floorMod (Real.pi - φ) (2 * Real.pi) := by
  have hrest := floorMod_mem_Ico (Real.pi - φ) Real.two_pi_pos
  have hlow : -Real.pi < Real.pi - floorMod (Real.pi - φ) (2 * Real.pi) := by
    linarith [hrest.2]
  simp [reduce, not_le.mpr hlow]

theorem reduce_eq_toIocMod (φ : ℝ) : reduce φ = toIocMod Real.two_pi_pos (-Real.pi) φ := by
  refine ((toIocMod_eq_iff Real.two_pi_pos).mpr ⟨?_, ?_⟩).symm
  · obtain ⟨hlow, hhigh⟩ := floorMod_mem_Ico (Real.pi - φ) Real.two_pi_pos
    rw [reduce_real]
    constructor <;> linarith
  · refine ⟨-⌊(Real.pi - φ) / (2 * Real.pi)⌋, ?_⟩
    rw [reduce_real, zsmul_eq_mul]
    simp only [floorMod]
    push_cast
    ring

theorem wrap_eq_toIocMod (φ : ℝ) : wrap φ = toIocMod Real.two_pi_pos (-Real.pi) φ := by
  rw [wrap_eq_ite]
  split
  · next h =>
    have hmem : φ ∈ Set.Ioc (-Real.pi) (-Real.pi + 2 * Real.pi) := by
      obtain ⟨hlow, hhigh⟩ := isWrapped_real.mp h
      exact ⟨hlow, by linarith⟩
    exact ((toIocMod_eq_self Real.two_pi_pos).mpr hmem).symm
  · exact reduce_eq_toIocMod φ

/-- In its range as well as out of it, an azimuth wraps to the remainder. -/
theorem wrap_eq_reduce (φ : ℝ) : wrap φ = reduce φ := by
  rw [wrap_eq_toIocMod, reduce_eq_toIocMod]

/-- An azimuth wraps to the angle in `(-π, π]` that differs from it by full turns. -/
theorem wrap_eq_iff {φ x : ℝ} :
    wrap φ = x ↔ x ∈ Set.Ioc (-Real.pi) Real.pi ∧ ∃ n : ℤ, x - φ = n * (2 * Real.pi) := by
  have hhigh : -Real.pi + 2 * Real.pi = Real.pi := by ring
  rw [wrap_eq_toIocMod, toIocMod_eq_iff, hhigh]
  refine and_congr_right fun _ => ⟨?_, ?_⟩
  · rintro ⟨n, rfl⟩
    exact ⟨-n, by rw [zsmul_eq_mul]; push_cast; ring⟩
  · rintro ⟨n, hn⟩
    exact ⟨-n, by rw [zsmul_eq_mul]; push_cast; linarith⟩

theorem wrap_mem_Ioc (φ : ℝ) : wrap φ ∈ Set.Ioc (-Real.pi) Real.pi := (wrap_eq_iff.mp rfl).1

/-- Wrapping an azimuth adds full turns to it. -/
theorem exists_wrap_eq (φ : ℝ) : ∃ n : ℤ, wrap φ = φ + n * (2 * Real.pi) := by
  obtain ⟨n, hn⟩ := (wrap_eq_iff.mp (rfl : wrap φ = wrap φ)).2
  exact ⟨n, by linarith⟩

/-- Full turns make no difference. -/
theorem wrap_add_turns (φ : ℝ) (n : ℤ) : wrap (φ + n * (2 * Real.pi)) = wrap φ := by
  rw [wrap_eq_toIocMod, wrap_eq_toIocMod, ← zsmul_eq_mul, toIocMod_add_zsmul]

@[simp] theorem wrap_zero : wrap (0 : ℝ) = 0 :=
  wrap_of_isWrapped (isWrapped_real.mpr ⟨neg_lt_zero.mpr Real.pi_pos, Real.pi_pos.le⟩)

/-- The opposite azimuth wraps to the opposite angle, unless that is `-π`. -/
theorem wrap_neg (φ : ℝ) : wrap (-φ) = if wrap φ = Real.pi then Real.pi else -wrap φ := by
  obtain ⟨n, hn⟩ := exists_wrap_eq φ
  obtain ⟨hlow, hhigh⟩ := wrap_mem_Ioc φ
  split
  · next hpi =>
    refine wrap_eq_iff.mpr ⟨⟨neg_lt_self Real.pi_pos, le_rfl⟩, 1 - n, ?_⟩
    push_cast
    linarith
  · next hpi =>
    have hlt : wrap φ < Real.pi := lt_of_le_of_ne hhigh hpi
    refine wrap_eq_iff.mpr ⟨⟨by linarith, by linarith⟩, -n, ?_⟩
    push_cast
    linarith

/-- Opposite azimuths wrap to angles of one size. -/
theorem abs_wrap_neg (φ : ℝ) : |wrap (-φ)| = |wrap φ| := by
  rw [wrap_neg]
  split
  · next hpi => rw [hpi]
  · exact abs_neg _

/-! ## Inclinations -/

/-- An inclination in its range is not clamped. -/
theorem clamp_of_mem {θ : ℝ} (h : θ ∈ Set.Icc 0 Real.pi) : clamp θ = θ := by
  rw [clamp, zero_real, pi_real, clip_of_mem h]

theorem clamp_of_neg {θ : ℝ} (h : θ < 0) : clamp θ = 0 := by
  simp [clamp, clip, h]

theorem clamp_of_pi_lt {θ : ℝ} (h : Real.pi < θ) : clamp θ = Real.pi := by
  have hpos : ¬θ < 0 := not_lt.mpr (Real.pi_pos.le.trans h.le)
  simp [clamp, clip, h, hpos]

/-- An inclination is below, above or in its range. -/
theorem clamp_cases (θ : ℝ) :
    (θ < 0 ∧ clamp θ = 0) ∨ (θ ∈ Set.Icc 0 Real.pi ∧ clamp θ = θ) ∨
      (Real.pi < θ ∧ clamp θ = Real.pi) := by
  rcases lt_or_ge θ 0 with hneg | hnonneg
  · exact .inl ⟨hneg, clamp_of_neg hneg⟩
  · rcases lt_or_ge Real.pi θ with hover | hle
    · exact .inr (.inr ⟨hover, clamp_of_pi_lt hover⟩)
    · exact .inr (.inl ⟨⟨hnonneg, hle⟩, clamp_of_mem ⟨hnonneg, hle⟩⟩)

theorem clamp_mem_Icc (θ : ℝ) : clamp θ ∈ Set.Icc 0 Real.pi := by
  rcases clamp_cases θ with ⟨-, h⟩ | ⟨hmem, h⟩ | ⟨-, h⟩
  · exact h.symm ▸ ⟨le_rfl, Real.pi_pos.le⟩
  · exact h.symm ▸ hmem
  · exact h.symm ▸ ⟨Real.pi_pos.le, le_rfl⟩

/-- Every other inclination in the range is farther away. -/
theorem abs_clamp_sub_lt {θ t : ℝ} (ht : t ∈ Set.Icc 0 Real.pi) (hne : t ≠ clamp θ) :
    |clamp θ - θ| < |t - θ| := by
  rcases clamp_cases θ with ⟨hneg, h⟩ | ⟨-, h⟩ | ⟨hover, h⟩
  · have hpos : 0 < t := lt_of_le_of_ne ht.1 (h ▸ hne.symm)
    rw [h, abs_of_pos (by linarith), abs_of_pos (by linarith)]
    linarith
  · rw [h] at hne ⊢
    rw [sub_self, abs_zero]
    exact abs_pos.mpr (sub_ne_zero.mpr hne)
  · have hlt : t < Real.pi := lt_of_le_of_ne ht.2 (h ▸ hne)
    rw [h, abs_of_neg (by linarith), abs_of_neg (by linarith)]
    linarith

/-- How far an inclination is off the horizontal plane after it was clamped. -/
theorem abs_clamp_sub_half_pi (θ : ℝ) :
    |clamp θ - Real.pi / 2| = min |θ - Real.pi / 2| (Real.pi / 2) := by
  have hpi := Real.pi_pos
  rcases clamp_cases θ with ⟨hneg, h⟩ | ⟨hmem, h⟩ | ⟨hover, h⟩
  · rw [h, abs_of_neg (by linarith), abs_of_neg (by linarith), min_eq_right (by linarith)]
    ring
  · rw [h, min_eq_left (abs_le.mpr ⟨by linarith [hmem.1], by linarith [hmem.2]⟩)]
  · rw [h, abs_of_pos (by linarith), abs_of_pos (by linarith), min_eq_right (by linarith)]
    ring

end Angle

end AntennaArray
