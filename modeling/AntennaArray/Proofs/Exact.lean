import Mathlib.Analysis.SpecialFunctions.Complex.Arg
import Mathlib.Analysis.SpecialFunctions.Log.Base
import Mathlib.Analysis.SpecialFunctions.Pow.Real
import Mathlib.Analysis.SpecialFunctions.Trigonometric.Inverse
import AntennaArray.Scalar

/-!
# Exact arithmetic

Real numbers are scalars whose operations do not round, and levels over them are real numbers with
`-∞` below. Every formula of the library can be read over them; the lemmas here turn the operations
of `Scalar ℝ` and `LevelScale ℝ` into those of Mathlib.
-/

namespace AntennaArray

/-- The integer nearest to a real number, a half to the even one. -/
noncomputable def nearestEven (x : ℝ) : ℤ :=
  if x - ⌊x⌋ < 1 / 2 then ⌊x⌋
  else if 1 / 2 < x - ⌊x⌋ then ⌊x⌋ + 1
  else ⌊x⌋ + ⌊x⌋ % 2

/-- Real numbers do not round, and all of them are finite. -/
noncomputable instance : Scalar ℝ where
  ofInt n := n
  pi := Real.pi
  sin := Real.sin
  cos := Real.cos
  asin := Real.arcsin
  acos := Real.arccos
  atan2 y x := Complex.arg ⟨x, y⟩
  sqrt := Real.sqrt
  hypot x y := √(x ^ 2 + y ^ 2)
  log10 := Real.logb 10
  pow x y := x ^ y
  floorMod x y := x - y * ⌊x / y⌋
  nearest := nearestEven
  lt x y := decide (x < y)
  le x y := decide (x ≤ y)
  isNaN _ := false
  isFinite _ := true

/-- Levels over the real numbers: no power has the level `-∞`. -/
noncomputable instance : LevelScale ℝ (WithBot ℝ) where
  ofDecibels x := x
  ofPower x := if x = 0 then ⊥ else (10 * Real.logb 10 x : ℝ)
  ofAmplitude x := if x = 0 then ⊥ else (20 * Real.logb 10 x : ℝ)
  amplitude
    | ⊥ => 0
    | (x : ℝ) => 10 ^ (x / 20)

namespace Scalar

@[simp] theorem ofInt_real (n : ℤ) : (ofInt n : ℝ) = n := rfl
@[simp] theorem pi_real : (pi : ℝ) = Real.pi := rfl
@[simp] theorem sin_real (x : ℝ) : sin x = Real.sin x := rfl
@[simp] theorem cos_real (x : ℝ) : cos x = Real.cos x := rfl
@[simp] theorem acos_real (x : ℝ) : acos x = Real.arccos x := rfl
@[simp] theorem atan2_real (y x : ℝ) : atan2 y x = Complex.arg ⟨x, y⟩ := rfl
@[simp] theorem hypot_real (x y : ℝ) : hypot x y = √(x ^ 2 + y ^ 2) := rfl
@[simp] theorem lt_real (x y : ℝ) : lt x y = decide (x < y) := rfl
@[simp] theorem le_real (x y : ℝ) : le x y = decide (x ≤ y) := rfl
@[simp] theorem isFinite_real (x : ℝ) : isFinite x = true := rfl
@[simp] theorem zero_real : (zero : ℝ) = 0 := Int.cast_zero
@[simp] theorem one_real : (one : ℝ) = 1 := Int.cast_one

@[simp] theorem square_real (x : ℝ) : square x = x ^ 2 := (sq x).symm

@[simp] theorem minimum_real (x y : ℝ) : minimum x y = min x y := by
  by_cases h : x ≤ y <;> simp [minimum, isNaN, h, le_of_not_ge]

/-- Clipping leaves a number between the bounds alone. -/
theorem clip_of_mem {low high x : ℝ} (h : x ∈ Set.Icc low high) : clip low high x = x := by
  simp [clip, not_lt.mpr h.1, not_lt.mpr h.2]

end Scalar

/-! ## Levels -/

namespace LevelScale

theorem ofPower_of_ne_zero {x : ℝ} (h : x ≠ 0) :
    (ofPower x : WithBot ℝ) = (10 * Real.logb 10 x : ℝ) :=
  if_neg h

/-- No power, and only no power, has the level `-∞`. -/
@[simp] theorem ofPower_eq_bot {x : ℝ} : (ofPower x : WithBot ℝ) = ⊥ ↔ x = 0 := by
  constructor
  · intro h
    by_contra hx
    rw [ofPower_of_ne_zero hx] at h
    exact WithBot.coe_ne_bot h
  · intro h
    exact if_pos h

/-- The level of a product of powers is the sum of the levels. -/
theorem ofPower_mul (x y : ℝ) :
    (ofPower (x * y) : WithBot ℝ) = (ofPower x : WithBot ℝ) + ofPower y := by
  by_cases hx : x = 0
  · rw [ofPower_eq_bot.mpr hx, WithBot.bot_add, ofPower_eq_bot, hx, zero_mul]
  · by_cases hy : y = 0
    · rw [ofPower_eq_bot.mpr hy, WithBot.add_bot, ofPower_eq_bot, hy, mul_zero]
    · rw [ofPower_of_ne_zero hx, ofPower_of_ne_zero hy, ofPower_of_ne_zero (mul_ne_zero hx hy),
        Real.logb_mul hx hy, mul_add, WithBot.coe_add]

theorem ofAmplitude_of_ne_zero {x : ℝ} (h : x ≠ 0) :
    (ofAmplitude x : WithBot ℝ) = (20 * Real.logb 10 x : ℝ) :=
  if_neg h

/-- The level of an amplitude is that of its square as a power. -/
theorem ofAmplitude_eq (x : ℝ) : (ofAmplitude x : WithBot ℝ) = ofPower (x ^ 2) := by
  by_cases hx : x = 0
  · rw [ofPower_eq_bot.mpr (by rw [hx, sq, mul_zero])]
    exact if_pos hx
  · have hlog : 10 * Real.logb 10 (x ^ 2) = 20 * Real.logb 10 x := by
      rw [Real.logb_pow]
      push_cast
      ring
    rw [ofPower_of_ne_zero (pow_ne_zero 2 hx), hlog]
    exact if_neg hx

/-- No amplitude, and only no amplitude, has the level `-∞`. -/
@[simp] theorem ofAmplitude_eq_bot {x : ℝ} : (ofAmplitude x : WithBot ℝ) = ⊥ ↔ x = 0 := by
  rw [ofAmplitude_eq, ofPower_eq_bot, sq_eq_zero_iff]

/-- A greater power has a greater level. -/
theorem ofPower_le_ofPower {x y : ℝ} (hx : 0 ≤ x) (h : x ≤ y) :
    (ofPower x : WithBot ℝ) ≤ ofPower y := by
  rcases hx.eq_or_lt with rfl | hpos
  · rw [ofPower_eq_bot.mpr rfl]
    exact bot_le
  · rw [ofPower_of_ne_zero hpos.ne', ofPower_of_ne_zero (hpos.trans_le h).ne', WithBot.coe_le_coe]
    have hlog : Real.logb 10 x ≤ Real.logb 10 y := Real.logb_le_logb_of_le (by norm_num) hpos h
    linarith

/-- Amplitudes are ordered as their levels are, and no amplitude is below all others. -/
theorem ofAmplitude_le_ofAmplitude {x y : ℝ} (hx : 0 ≤ x) (hy : 0 ≤ y) :
    (ofAmplitude x : WithBot ℝ) ≤ ofAmplitude y ↔ x ≤ y := by
  rw [ofAmplitude_eq, ofAmplitude_eq]
  constructor
  · intro h
    by_contra hlt
    have hpos : 0 < x ^ 2 := pow_pos (hy.trans_lt (not_le.mp hlt)) 2
    have hsquare : y ^ 2 < x ^ 2 := pow_lt_pow_left₀ (not_le.mp hlt) hy two_ne_zero
    by_cases hzero : y ^ 2 = 0
    · rw [ofPower_eq_bot.mpr hzero, le_bot_iff, ofPower_eq_bot] at h
      exact hpos.ne' h
    · have hlog : Real.logb 10 (y ^ 2) < Real.logb 10 (x ^ 2) :=
        Real.logb_lt_logb (by norm_num) (lt_of_le_of_ne (sq_nonneg y) (Ne.symm hzero)) hsquare
      rw [ofPower_of_ne_zero hzero, ofPower_of_ne_zero hpos.ne', WithBot.coe_le_coe] at h
      linarith
  · intro h
    exact ofPower_le_ofPower (sq_nonneg x) (pow_le_pow_left₀ hx h 2)

theorem ofAmplitude_lt_ofAmplitude {x y : ℝ} (hx : 0 ≤ x) (hy : 0 ≤ y) :
    (ofAmplitude x : WithBot ℝ) < ofAmplitude y ↔ x < y := by
  rw [← not_le, ← not_le, ofAmplitude_le_ofAmplitude hy hx]

/-- The level of a product of amplitudes is the sum of the levels. -/
theorem ofAmplitude_mul (x y : ℝ) :
    (ofAmplitude (x * y) : WithBot ℝ) = (ofAmplitude x : WithBot ℝ) + ofAmplitude y := by
  rw [ofAmplitude_eq, ofAmplitude_eq, ofAmplitude_eq, mul_pow, ofPower_mul]

/-- The power of the amplitude that has a level has that level. -/
@[simp] theorem ofPower_amplitude_sq (g : WithBot ℝ) :
    (ofPower ((amplitude g : ℝ) ^ 2) : WithBot ℝ) = g := by
  cases g with
  | bot => exact ofPower_eq_bot.mpr (zero_pow two_ne_zero)
  | coe x =>
    have hamplitude : (amplitude (x : WithBot ℝ) : ℝ) ^ 2 = 10 ^ (x / 10) := by
      calc (amplitude (x : WithBot ℝ) : ℝ) ^ 2 = ((10 : ℝ) ^ (x / 20)) ^ (2 : ℝ) :=
            (Real.rpow_two _).symm
        _ = 10 ^ (x / 10) := by
            rw [← Real.rpow_mul (by norm_num)]
            congr 1
            ring
    have hpos : (0 : ℝ) < 10 ^ (x / 10) := by positivity
    rw [hamplitude, ofPower_of_ne_zero hpos.ne', Real.logb_rpow (by norm_num) (by norm_num)]
    congr 1
    ring

end LevelScale

end AntennaArray
