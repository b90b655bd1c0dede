import Mathlib.Analysis.SpecialFunctions.Complex.Arg
import AntennaArray.Phasor
import AntennaArray.Proofs.Exact

/-!
# Phasors over the real numbers

Phasors with real parts are complex numbers, and their operations are those of Mathlib. A vector of
phasors has an energy, the sum of the squared lengths of its entries. The sum of the products of
corresponding entries is bounded by the energies (`sq_abs_inner_le`), and against the conjugate
vector it reaches the bound (`toComplex_inner_conj`).
-/

namespace AntennaArray

open Scalar

namespace Scalar

/-- The sum of a list of real numbers. -/
@[simp] theorem sum_real (xs : List ℝ) : Scalar.sum xs = xs.sum := by
  rw [Scalar.sum, zero_real, List.sum_eq_foldl]

end Scalar

namespace Phasor

def toComplex (a : Phasor ℝ) : ℂ := ⟨a.re, a.im⟩

variable {a b : Phasor ℝ} {xs ys : List (Phasor ℝ)}

@[simp] theorem toComplex_add (a b : Phasor ℝ) :
    (a.add b).toComplex = a.toComplex + b.toComplex := rfl

@[simp] theorem toComplex_mul (a b : Phasor ℝ) :
    (a.mul b).toComplex = a.toComplex * b.toComplex := rfl

@[simp] theorem toComplex_conj (a : Phasor ℝ) :
    a.conj.toComplex = starRingEnd ℂ a.toComplex := rfl

/-- The length of a phasor is the absolute value of the complex number. -/
theorem abs_eq_norm (a : Phasor ℝ) : a.abs = ‖a.toComplex‖ := by
  rw [abs, hypot_real, toComplex, Complex.norm_def, Complex.normSq_mk, sq, sq]

@[simp] theorem abs_conj (a : Phasor ℝ) : a.conj.abs = a.abs := by
  rw [abs_eq_norm, abs_eq_norm, toComplex_conj, RCLike.norm_conj]

theorem abs_nonneg (a : Phasor ℝ) : 0 ≤ a.abs := by
  rw [abs_eq_norm]
  exact norm_nonneg _

/-- A phasor at an angle is the complex exponential. -/
theorem toComplex_cis (t : ℝ) : (cis t).toComplex = Complex.exp (t * Complex.I) := by
  rw [Complex.exp_mul_I]
  apply Complex.ext
  · simp [toComplex, cis, Complex.cos_ofReal_re]
  · simp [toComplex, cis, Complex.sin_ofReal_re]

/-- A phasor at an angle has length one. -/
@[simp] theorem abs_cis (t : ℝ) : (cis t).abs = 1 := by
  rw [abs_eq_norm, toComplex_cis, Complex.norm_exp_ofReal_mul_I]

/-- Shrinking is division by a real number; by zero it gives zero. -/
theorem toComplex_shrink (a : Phasor ℝ) (x : ℝ) : (a.shrink x).toComplex = a.toComplex / x := by
  by_cases hx : x = 0
  · subst hx
    simp [shrink, toComplex]
    rfl
  · have hne : ¬(x ≤ 0 ∧ 0 ≤ x) := fun h => hx (le_antisymm h.1 h.2)
    have hparts : a.shrink x = ⟨a.re * (1 / x), a.im * (1 / x)⟩ := by simp [shrink, hne]
    rw [hparts]
    apply Complex.ext
    · rw [Complex.div_ofReal_re]
      exact (div_eq_mul_one_div a.re x).symm
    · rw [Complex.div_ofReal_im]
      exact (div_eq_mul_one_div a.im x).symm

/-! ## Sums and inner products -/

/-- Adding phasors one after another adds the complex numbers. -/
theorem toComplex_foldl_add (xs : List (Phasor ℝ)) (a : Phasor ℝ) :
    (xs.foldl add a).toComplex = a.toComplex + (xs.map toComplex).sum := by
  induction xs generalizing a with
  | nil => simp
  | cons x xs ih => simp [ih, add_assoc]

/-- The sum of some phasors is the sum of the complex numbers. -/
theorem toComplex_sum (xs : List (Phasor ℝ)) : (sum xs).toComplex = (xs.map toComplex).sum := by
  have hzero : (⟨zero, zero⟩ : Phasor ℝ).toComplex = 0 := by simp [toComplex]; rfl
  rw [sum, toComplex_foldl_add, hzero, zero_add]

@[simp] theorem toComplex_inner_nil_left (ys : List (Phasor ℝ)) :
    (inner [] ys).toComplex = 0 := by
  rw [inner, List.zipWith_nil_left, toComplex_sum, List.map_nil, List.sum_nil]

@[simp] theorem toComplex_inner_nil_right (xs : List (Phasor ℝ)) :
    (inner xs []).toComplex = 0 := by
  rw [inner, List.zipWith_nil_right, toComplex_sum, List.map_nil, List.sum_nil]

@[simp] theorem toComplex_inner_cons (x y : Phasor ℝ) (xs ys : List (Phasor ℝ)) :
    (inner (x :: xs) (y :: ys)).toComplex
      = x.toComplex * y.toComplex + (inner xs ys).toComplex := by
  rw [inner, inner, List.zipWith_cons_cons, toComplex_sum, toComplex_sum, List.map_cons,
    List.sum_cons, toComplex_mul]

/-- The sum of the squared lengths of the entries. -/
noncomputable def energy (xs : List (Phasor ℝ)) : ℝ := (xs.map fun x => x.abs ^ 2).sum

@[simp] theorem energy_nil : energy [] = 0 := rfl

@[simp] theorem energy_cons (x : Phasor ℝ) (xs : List (Phasor ℝ)) :
    energy (x :: xs) = x.abs ^ 2 + energy xs := by
  simp [energy]

theorem energy_nonneg (xs : List (Phasor ℝ)) : 0 ≤ energy xs := by
  induction xs with
  | nil => exact le_rfl
  | cons x xs ih => rw [energy_cons]; positivity

/-- The norm of a vector is the root of its energy. -/
theorem norm_eq_sqrt_energy (xs : List (Phasor ℝ)) : norm xs = √(energy xs) := by
  simp only [norm, sum_real, square_real]
  rfl

/-- The energy of unit phasors is their number. -/
theorem energy_of_forall_abs_eq_one (h : ∀ x ∈ xs, x.abs = 1) : energy xs = xs.length := by
  induction xs with
  | nil => simp
  | cons x xs ih =>
    have hx : x.abs = 1 := h x List.mem_cons_self
    have hxs : energy xs = xs.length := ih fun y hy => h y (List.mem_cons_of_mem x hy)
    rw [energy_cons, hx, hxs, List.length_cons]
    push_cast
    ring

@[simp] theorem energy_map_conj (xs : List (Phasor ℝ)) : energy (xs.map conj) = energy xs := by
  simp [energy, Function.comp_def]

/-- The step of the bound on inner products: one more product beside a bounded rest. -/
theorem sq_mul_add_le {x y s A B : ℝ} (hA : 0 ≤ A) (hB : 0 ≤ B) (hs : s ^ 2 ≤ A * B) :
    (x * y + s) ^ 2 ≤ (x ^ 2 + A) * (y ^ 2 + B) := by
  have hcross : (2 * x * y * s) ^ 2 ≤ (x ^ 2 * B + y ^ 2 * A) ^ 2 := by
    calc (2 * x * y * s) ^ 2 = 4 * (x ^ 2 * y ^ 2) * s ^ 2 := by ring
      _ ≤ 4 * (x ^ 2 * y ^ 2) * (A * B) := by gcongr
      _ = (x ^ 2 * B + y ^ 2 * A) ^ 2 - (x ^ 2 * B - y ^ 2 * A) ^ 2 := by ring
      _ ≤ (x ^ 2 * B + y ^ 2 * A) ^ 2 := sub_le_self _ (sq_nonneg _)
  have hle : 2 * x * y * s ≤ x ^ 2 * B + y ^ 2 * A := le_of_sq_le_sq hcross (by positivity)
  calc (x * y + s) ^ 2 = x ^ 2 * y ^ 2 + 2 * x * y * s + s ^ 2 := by ring
    _ ≤ x ^ 2 * y ^ 2 + (x ^ 2 * B + y ^ 2 * A) + A * B := by gcongr
    _ = (x ^ 2 + A) * (y ^ 2 + B) := by ring

/-- The squared length of an inner product is at most the product of the energies. -/
theorem sq_abs_inner_le (xs ys : List (Phasor ℝ)) :
    (inner xs ys).abs ^ 2 ≤ energy xs * energy ys := by
  induction xs generalizing ys with
  | nil =>
    simp [abs_eq_norm]
  | cons x xs ih =>
    cases ys with
    | nil => simp [abs_eq_norm]
    | cons y ys =>
      have htriangle : (inner (x :: xs) (y :: ys)).abs ≤ x.abs * y.abs + (inner xs ys).abs := by
        simp only [abs_eq_norm, toComplex_inner_cons]
        exact (norm_add_le _ _).trans_eq (by rw [norm_mul])
      rw [energy_cons, energy_cons]
      calc (inner (x :: xs) (y :: ys)).abs ^ 2
          ≤ (x.abs * y.abs + (inner xs ys).abs) ^ 2 := by
            have := abs_nonneg (inner (x :: xs) (y :: ys))
            gcongr
        _ ≤ (x.abs ^ 2 + energy xs) * (y.abs ^ 2 + energy ys) :=
            sq_mul_add_le (energy_nonneg xs) (energy_nonneg ys) (ih ys)

/-- Against its conjugate a vector reaches the bound. -/
theorem toComplex_inner_conj (xs : List (Phasor ℝ)) :
    (inner xs (xs.map conj)).toComplex = energy xs := by
  induction xs with
  | nil => simp
  | cons x xs ih =>
    rw [List.map_cons, toComplex_inner_cons, ih, energy_cons, toComplex_conj, Complex.mul_conj,
      Complex.normSq_eq_norm_sq, abs_eq_norm]
    push_cast
    rfl

/-! ## Vectors divided by their norm -/

/-- Dividing a vector divides its inner products. -/
theorem toComplex_inner_map_shrink (xs ys : List (Phasor ℝ)) (r : ℝ) :
    (inner xs (ys.map (·.shrink r))).toComplex = (inner xs ys).toComplex / r := by
  induction xs generalizing ys with
  | nil => simp
  | cons x xs ih =>
    cases ys with
    | nil => simp
    | cons y ys =>
      rw [List.map_cons, toComplex_inner_cons, toComplex_inner_cons, ih, toComplex_shrink]
      ring

/-- Dividing a vector divides its energy by the square. -/
theorem energy_map_shrink (xs : List (Phasor ℝ)) (r : ℝ) :
    energy (xs.map (·.shrink r)) = energy xs / r ^ 2 := by
  induction xs with
  | nil => simp
  | cons x xs ih =>
    rw [List.map_cons, energy_cons, energy_cons, ih, abs_eq_norm, toComplex_shrink, norm_div,
      ← abs_eq_norm, div_pow, Complex.norm_real, Real.norm_eq_abs, sq_abs]
    ring

/-- A vector that does not vanish has energy one after division by its norm. -/
theorem energy_normalize (h : 0 < energy xs) : energy (normalize xs) = 1 := by
  rw [normalize, energy_map_shrink, norm_eq_sqrt_energy, Real.sq_sqrt h.le, div_self h.ne']

end Phasor

end AntennaArray
