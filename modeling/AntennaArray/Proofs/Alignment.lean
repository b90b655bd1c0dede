import AntennaArray.Proofs.Phasor

/-!
# Vectors that differ by a phase

The inner product of two vectors of norm one has length at most one. It has length one exactly where
one vector is the other times a phasor of length one (`abs_inner_conj_eq_one_iff`): the phasor is
the inner product itself, and the distance that it leaves between the two vectors (`gap`) vanishes.
-/

namespace AntennaArray.Phasor

variable {a b z : Phasor ℝ} {xs ys : List (Phasor ℝ)}

theorem toComplex_injective : Function.Injective toComplex := by
  intro a b h
  cases a
  cases b
  cases h
  rfl

/-- Every vector is itself times a phasor of length one. -/
theorem map_one_mul (xs : List (Phasor ℝ)) : xs.map (mul ⟨1, 0⟩) = xs := by
  have hone : mul (⟨1, 0⟩ : Phasor ℝ) = id := by
    funext a
    simp [mul]
  rw [hone, List.map_id]

@[simp] theorem abs_one : (⟨1, 0⟩ : Phasor ℝ).abs = 1 := by
  simp [abs]

/-- With the other factor conjugated, a sum of products is conjugated. -/
theorem toComplex_inner_conj_comm (xs ys : List (Phasor ℝ)) :
    (inner ys (xs.map conj)).toComplex = starRingEnd ℂ (inner xs (ys.map conj)).toComplex := by
  induction xs generalizing ys with
  | nil => simp
  | cons x xs ih =>
    cases ys with
    | nil => simp
    | cons y ys => simp [ih, mul_comm]

theorem toComplex_inner_map_mul (z : Phasor ℝ) (xs ys : List (Phasor ℝ)) :
    (inner (xs.map z.mul) ys).toComplex = z.toComplex * (inner xs ys).toComplex := by
  induction xs generalizing ys with
  | nil => simp
  | cons x xs ih =>
    cases ys with
    | nil => simp
    | cons y ys => simp [ih, mul_add, mul_assoc]

/-- The squared distance between a vector and a multiple of another one. -/
noncomputable def gap (z : Phasor ℝ) (xs ys : List (Phasor ℝ)) : ℝ :=
  (xs.zipWith (fun x y => ‖x.toComplex - (z.mul y).toComplex‖ ^ 2) ys).sum

@[simp] theorem gap_nil (z : Phasor ℝ) : gap z [] [] = 0 := rfl

@[simp] theorem gap_cons (z x y : Phasor ℝ) (xs ys : List (Phasor ℝ)) :
    gap z (x :: xs) (y :: ys) = ‖x.toComplex - (z.mul y).toComplex‖ ^ 2 + gap z xs ys := by
  simp [gap]

theorem gap_nonneg (h : xs.length = ys.length) : 0 ≤ gap z xs ys := by
  induction xs generalizing ys with
  | nil => rw [List.eq_nil_of_length_eq_zero h.symm, gap_nil]
  | cons x xs ih =>
    cases ys with
    | nil => cases h
    | cons y ys =>
      have hrest := ih (Nat.succ.inj h)
      rw [gap_cons]
      positivity

/-- Where the distance vanishes, the one vector is the multiple of the other. -/
theorem eq_map_of_gap_eq_zero (h : xs.length = ys.length) (hgap : gap z xs ys = 0) :
    xs = ys.map z.mul := by
  induction xs generalizing ys with
  | nil => rw [List.eq_nil_of_length_eq_zero h.symm, List.map_nil]
  | cons x xs ih =>
    cases ys with
    | nil => cases h
    | cons y ys =>
      have hlength : xs.length = ys.length := Nat.succ.inj h
      have hrest : 0 ≤ gap z xs ys := gap_nonneg hlength
      rw [gap_cons, add_eq_zero_iff_of_nonneg (sq_nonneg _) hrest, sq_eq_zero_iff] at hgap
      have hx : x = z.mul y := toComplex_injective (sub_eq_zero.mp (norm_eq_zero.mp hgap.1))
      rw [List.map_cons, ← hx, ← ih hlength hgap.2]

theorem gap_eq (h : xs.length = ys.length) :
    gap z xs ys = energy xs + z.abs ^ 2 * energy ys
      - 2 * (starRingEnd ℂ z.toComplex * (inner xs (ys.map conj)).toComplex).re := by
  induction xs generalizing ys with
  | nil =>
    rw [List.eq_nil_of_length_eq_zero h.symm]
    simp
  | cons x xs ih =>
    cases ys with
    | nil => cases h
    | cons y ys =>
      have hfirst : ‖x.toComplex - (z.mul y).toComplex‖ ^ 2 = x.abs ^ 2 + z.abs ^ 2 * y.abs ^ 2
          - 2 * (starRingEnd ℂ z.toComplex * (x.toComplex * starRingEnd ℂ y.toComplex)).re := by
        rw [← Complex.normSq_eq_norm_sq, Complex.normSq_sub, toComplex_mul, Complex.normSq_mul,
          map_mul, abs_eq_norm, abs_eq_norm, abs_eq_norm, Complex.normSq_eq_norm_sq,
          Complex.normSq_eq_norm_sq, Complex.normSq_eq_norm_sq, mul_left_comm]
      rw [gap_cons, ih (Nat.succ.inj h), hfirst, List.map_cons, toComplex_inner_cons,
        toComplex_conj, mul_add, Complex.add_re, energy_cons, energy_cons]
      ring

/-- The inner product of two vectors of norm one leaves a distance of at most one. -/
theorem gap_inner (h : xs.length = ys.length) (hx : energy xs = 1) (hy : energy ys = 1) :
    gap (inner xs (ys.map conj)) xs ys = 1 - (inner xs (ys.map conj)).abs ^ 2 := by
  rw [gap_eq h, hx, hy, mul_comm (starRingEnd ℂ _), Complex.mul_conj, Complex.ofReal_re,
    Complex.normSq_eq_norm_sq, ← abs_eq_norm]
  ring

theorem abs_inner_conj_le_one (h : xs.length = ys.length) (hx : energy xs = 1)
    (hy : energy ys = 1) : (inner xs (ys.map conj)).abs ≤ 1 := by
  have hgap : 0 ≤ 1 - (inner xs (ys.map conj)).abs ^ 2 := by
    rw [← gap_inner h hx hy]
    exact gap_nonneg h
  nlinarith [abs_nonneg (inner xs (ys.map conj))]

/-- The inner product of two vectors of norm one has length one exactly where one vector is the
other times a phasor of length one. -/
theorem abs_inner_conj_eq_one_iff (h : xs.length = ys.length) (hx : energy xs = 1)
    (hy : energy ys = 1) :
    (inner xs (ys.map conj)).abs = 1 ↔ ∃ z : Phasor ℝ, z.abs = 1 ∧ xs = ys.map z.mul := by
  constructor
  · intro habs
    refine ⟨inner xs (ys.map conj), habs, eq_map_of_gap_eq_zero h ?_⟩
    rw [gap_inner h hx hy, habs]
    ring
  · rintro ⟨z, hz, rfl⟩
    rw [abs_eq_norm, toComplex_inner_map_mul, toComplex_inner_conj, hy, norm_mul, ← abs_eq_norm, hz]
    simp

end AntennaArray.Phasor
