import AntennaArray.Proofs.Exact
import AntennaArray.Codebook
import AntennaArray.Proofs.Alignment
import AntennaArray.Proofs.ArrayGain
import AntennaArray.Proofs.Normalized
import AntennaArray.Proofs.Peak
import AntennaArray.Proofs.Vectorized

/-!
# Entries of a codebook

The entries of a codebook over a grid are steering vectors divided by the root of the number of
elements. Their weights are those that point the array in the direction of the entry, and the two
ways to write a gain, with a conjugate and without one, agree on them. The search for the entry that
is most like the steering vector of an entry finds the first entry that differs from that one by a
phase at most: poles, repeated azimuths and aliases make several entries equally good.
-/

namespace AntennaArray

open Scalar

namespace Phasor

variable {xs : List (Phasor ℝ)}

theorem shrink_eq (a : Phasor ℝ) (x : ℝ) : a.shrink x = ⟨a.re / x, a.im / x⟩ := by
  apply toComplex_injective
  rw [toComplex_shrink]
  apply Complex.ext
  · exact Complex.div_ofReal_re _ _
  · exact Complex.div_ofReal_im _ _

/-- A vector of norm one stays when it is divided by its norm. -/
theorem normalize_of_energy_eq_one (h : energy xs = 1) : normalize xs = xs := by
  rw [normalize, norm_eq_sqrt_energy, h, Real.sqrt_one]
  simp [shrink_eq]

/-- A vector divided by its norm is conjugated before or after. -/
theorem normalize_map_conj (xs : List (Phasor ℝ)) :
    normalize (xs.map conj) = (normalize xs).map conj := by
  rw [normalize, normalize, norm_eq_sqrt_energy, norm_eq_sqrt_energy, energy_map_conj]
  simp [shrink_eq, conj, neg_div]

end Phasor

namespace Codebook

variable {rows : List (List (Phasor ℝ))} {width : ℕ}

/-! ## The table of a codebook -/

/-- Rows that are laid out one after another are cut apart again. -/
theorem chunks_flatten (h : ∀ row ∈ rows, row.length = width) :
    chunks width rows.length rows.flatten = rows := by
  induction rows with
  | nil => rfl
  | cons row rows ih =>
    have hrow : row.length = width := h row List.mem_cons_self
    rw [List.length_cons, List.flatten_cons, chunks, List.take_left' hrow, List.drop_left' hrow,
      ih fun r hr => h r (List.mem_cons_of_mem row hr)]

theorem length_flatten (h : ∀ row ∈ rows, row.length = width) :
    rows.flatten.length = rows.length * width := by
  rw [List.length_flatten, List.map_congr_left h, List.map_const', List.sum_replicate_nat]

/-- Rows of one length make a table. -/
theorem exists_table (h : ∀ row ∈ rows, row.length = width) :
    ∃ cb : Codebook ℝ, Tensor.ofShape? [rows.length, width] rows.flatten = some cb ∧
      table? cb = some (width, rows) := by
  have hlength : rows.flatten.length = volume [width, rows.length] := by
    rw [length_flatten h]
    simp [volume, Nat.mul_comm]
  refine ⟨⟨[width, rows.length], rows.flatten.toArray, hlength⟩, dif_pos hlength, ?_⟩
  simp [table?, Tensor.toList, chunks_flatten h]

/-! ## Entries over a grid -/

section

variable {α : Type} [Scalar α]

theorem entries_eq_ok (a : PhasedArray α) (ds : List (Direction α)) :
    entries a ds = .ok (ds.map fun d => Phasor.normalize (a.steering d)) := by
  rw [entries, a.steeringRows_angles, ok_bind, List.map_map]
  rfl

end

variable {a : PhasedArray ℝ} {d : Direction ℝ}

theorem ofGrid_eq_ok (a : PhasedArray ℝ) (θ φ : List ℝ) :
    ofGrid a θ φ = .ok ((grid θ φ).map fun d => Phasor.normalize (a.steering d), grid θ φ) := by
  have hgrid : grid? θ φ = .ok (grid θ φ) := by simp [grid?]
  rw [ofGrid, hgrid, ok_bind, entries_eq_ok, ok_bind]
  rfl

/-- An entry has norm one. -/
theorem energy_entry (h : 0 < a.size) (d : Direction ℝ) :
    Phasor.energy (Phasor.normalize (a.steering d)) = 1 := by
  apply Phasor.energy_normalize
  rw [a.energy_steering]
  exact_mod_cast h

/-- An entry is a steering vector divided by the root of the number of elements. -/
theorem entry_eq (a : PhasedArray ℝ) (d : Direction ℝ) :
    Phasor.normalize (a.steering d)
      = (a.steering d).map fun s => ⟨s.re / √a.size, s.im / √a.size⟩ := by
  simp only [Phasor.normalize, Phasor.norm_eq_sqrt_energy, a.energy_steering, Phasor.shrink_eq]

/-- The weights of an entry point the array in its direction. -/
theorem weightsOf_entry (h : 0 < a.size) (d : Direction ℝ) :
    weightsOf (Phasor.normalize (a.steering d)) = a.beam d := by
  rw [weightsOf, PhasedArray.beam, Phasor.normalize_map_conj, Phasor.normalize_map_conj,
    Phasor.normalize_of_energy_eq_one (energy_entry h d)]

/-! ## Gains of an entry -/

/-- The gain of a row is the level of its likeness. -/
theorem codeword_eq_ok {row s : List (Phasor ℝ)} (h : row.length = s.length) :
    Gain.codeword row s = .ok (LevelScale.ofAmplitude (likeness s row) : WithBot ℝ) := by
  have hlength : row.length = (s.map Phasor.conj).length := by rw [List.length_map, h]
  rw [Gain.codeword, Gain.pairing, if_pos hlength]
  rfl

/-- A codeword, which is conjugated against the steering vector, has the gain of its weights. -/
theorem codeword_eq_beamforming {row s : List (Phasor ℝ)} (hlength : s.length = row.length) :
    (Gain.codeword row s : Attempt (WithBot ℝ)) = Gain.beamforming s (row.map Phasor.conj) := by
  rw [Gain.beamforming_eq_ok (by simp [hlength]), codeword_eq_ok hlength.symm, likeness,
    LevelScale.ofAmplitude_eq, Phasor.abs_eq_norm, Phasor.abs_eq_norm,
    Phasor.toComplex_inner_conj_comm, RCLike.norm_conj, square_real]

/-- An entry is like a steering vector as far as it is like the entry of that vector. -/
theorem likeness_eq (h : 0 < a.size) (d : Direction ℝ) (row : List (Phasor ℝ)) :
    likeness (a.steering d) row
      = √a.size * (Phasor.inner row ((Phasor.normalize (a.steering d)).map Phasor.conj)).abs := by
  have hsize : √(a.size : ℝ) ≠ 0 := by positivity
  rw [← Phasor.normalize_map_conj, Phasor.normalize, Phasor.abs_eq_norm,
    Phasor.toComplex_inner_map_shrink, Phasor.norm_eq_sqrt_energy, a.energy_conj_steering, norm_div,
    Complex.norm_real, Real.norm_of_nonneg (Real.sqrt_nonneg _), mul_div_cancel₀ _ hsize,
    ← Phasor.abs_eq_norm]
  rfl

/-! ## Indices -/

theorem screenIndex_natCast {k : ℕ} (h : k < indexLimit) : screenIndex k = .ok () := by
  rw [screenIndex, if_neg fun hlarge => absurd hlarge.1 (by exact_mod_cast h.not_ge)]

@[simp] theorem row?_natCast (rows : List (List (Phasor ℝ))) (k : ℕ) : row? rows k = rows[k]? := by
  have hk : ¬(k : ℤ) < 0 := by omega
  simp [row?, hk]

/-! ## The search -/

theorem exceeds_real (x y : ℝ) : Ranked.exceeds x y = true ↔ id x < id y := by
  have hexceeds : Ranked.exceeds x y = (!false && (false || decide (x < y))) := rfl
  simp [hexceeds]

theorem exists_peak {xs : List ℝ} (h : xs ≠ []) :
    ∃ k x, peak? xs = some (k, x) ∧ IsFirstGreatest id xs k x := by
  cases xs with
  | nil => exact absurd rfl h
  | cons y rest => exact ⟨_, _, rfl, isFirstGreatest_of_peak? exceeds_real rfl⟩

/-- The search reports the gain of the row with the peak. -/
theorem best_of_peak {cb : Codebook ℝ} {row s : List (Phasor ℝ)} {k : ℕ} {x : ℝ}
    (hcb : table? cb = some (s.length, rows)) (hpeak : peak? (rows.map (likeness s)) = some (k, x))
    (hrow : rows[k]? = some row) (hlength : row.length = s.length) :
    best cb s = .ok (k, (LevelScale.ofAmplitude (likeness s row) : WithBot ℝ)) := by
  rw [best, hcb]
  simp only [ne_eq, not_true_eq_false, if_false, hpeak]
  rw [List.getD_eq_getElem?_getD, hrow, Option.getD_some, codeword_eq_ok hlength]
  rfl

/-- The entries that are one of them times a phasor of length one. -/
def Equivalents (rows : List (List (Phasor ℝ))) (row : List (Phasor ℝ)) : Set ℕ :=
  {l | ∃ z : Phasor ℝ, z.abs = 1 ∧ rows[l]? = some (row.map z.mul)}

/-- Among rows of norm one, those that are like a steering vector as far as possible are the entry
of that vector up to a phase. -/
theorem likeness_eq_iff (h : 0 < a.size) (d : Direction ℝ) {row : List (Phasor ℝ)}
    (hlength : row.length = a.size) (hrow : Phasor.energy row = 1) :
    likeness (a.steering d) row = √a.size ↔
      ∃ z : Phasor ℝ, z.abs = 1 ∧ row = (Phasor.normalize (a.steering d)).map z.mul := by
  have hsize : √(a.size : ℝ) ≠ 0 := by positivity
  rw [likeness_eq h, mul_right_eq_self₀, or_iff_left hsize]
  exact Phasor.abs_inner_conj_eq_one_iff (by simp [hlength]) hrow (energy_entry h d)

theorem likeness_le (h : 0 < a.size) (d : Direction ℝ) {row : List (Phasor ℝ)}
    (hlength : row.length = a.size) (hrow : Phasor.energy row = 1) :
    likeness (a.steering d) row ≤ √a.size := by
  rw [likeness_eq h]
  exact mul_le_of_le_one_right (Real.sqrt_nonneg _)
    (Phasor.abs_inner_conj_le_one (by simp [hlength]) hrow (energy_entry h d))

/-- The search finds the first entry that is the entry of a steering vector up to a phase. -/
theorem exists_best (h : 0 < a.size) (d : Direction ℝ) {cb : Codebook ℝ}
    (hcb : table? cb = some (a.size, rows))
    (hrows : ∀ row ∈ rows, row.length = a.size ∧ Phasor.energy row = 1)
    (hmem : Phasor.normalize (a.steering d) ∈ rows) :
    ∃ j, best cb (a.steering d) = .ok (j, ((10 * Real.logb 10 a.size : ℝ) : WithBot ℝ)) ∧
      IsLeast (Equivalents rows (Phasor.normalize (a.steering d))) j := by
  have hfound : rows.map (likeness (a.steering d)) ≠ [] := by
    simp [List.ne_nil_of_mem hmem]
  obtain ⟨j, x, hpeak, hfirst⟩ := exists_peak hfound
  obtain ⟨row, hrow, hx⟩ : ∃ row, rows[j]? = some row ∧ likeness (a.steering d) row = x := by
    have hentry := hfirst.entry
    rw [List.getElem?_map] at hentry
    exact Option.map_eq_some_iff.mp hentry
  obtain ⟨hlength, henergy⟩ := hrows row (List.mem_of_getElem? hrow)
  -- the entry itself reaches the bound, so the greatest likeness is the bound
  have hown : likeness (a.steering d) (Phasor.normalize (a.steering d)) = √a.size :=
    (likeness_eq_iff h d (hrows _ hmem).1 (hrows _ hmem).2).mpr
      ⟨⟨1, 0⟩, Phasor.abs_one, (Phasor.map_one_mul _).symm⟩
  have htop : x = √a.size := by
    apply le_antisymm
    · rw [← hx]
      exact likeness_le h d hlength henergy
    · rw [← hown]
      exact hfirst.greatest _ (List.mem_map_of_mem hmem)
  have hlevel : (LevelScale.ofAmplitude √(a.size : ℝ) : WithBot ℝ)
      = (10 * Real.logb 10 a.size : ℝ) := by
    have hsize : (a.size : ℝ) ≠ 0 := by positivity
    rw [LevelScale.ofAmplitude_eq, Real.sq_sqrt (Nat.cast_nonneg _),
      LevelScale.ofPower_of_ne_zero hsize]
  have hsteering : (a.steering d).length = a.size := a.length_steering d
  have hbest := best_of_peak (hsteering ▸ hcb) hpeak hrow (hlength.trans hsteering.symm)
  rw [htop] at hx hfirst
  rw [hx, hlevel] at hbest
  refine ⟨j, hbest, ?_, ?_⟩
  · obtain ⟨z, hz, heq⟩ := (likeness_eq_iff h d hlength henergy).mp hx
    exact ⟨z, hz, heq ▸ hrow⟩
  · rintro l ⟨z, hz, hl⟩
    by_contra hlt
    obtain ⟨hlength', henergy'⟩ := hrows _ (List.mem_of_getElem? hl)
    have hbelow := hfirst.first l (not_le.mp hlt) _ (by rw [List.getElem?_map, hl]; rfl)
    exact hbelow.ne ((likeness_eq_iff h d hlength' henergy').mpr ⟨z, hz, rfl⟩)

/-! ## Codebooks over a grid -/

/-- The codebook of an array over a grid. An entry is the steering vector of its direction divided
by the root of the number of elements; its weights point the array there, and give every steering
vector the gain of the codeword. The best entry for the steering vector of an entry is the first one
that is the same up to a phase, and the gain is `10 log₁₀` of the number of elements. -/
theorem exists_ofGrid (a : PhasedArray ℝ) (h : 0 < a.size) (θ φ : List ℝ) :
    ∃ rows, ∃ cb : Codebook ℝ, ofGrid a θ φ = .ok (rows, grid θ φ) ∧
      rows.length = φ.length * θ.length ∧
      Tensor.ofShape? [rows.length, a.size] rows.flatten = some cb ∧
      ∀ (k : ℕ) (d : Direction ℝ), (grid θ φ)[k]? = some d → ∃ row, rows[k]? = some row ∧
        row = (a.steering d).map (fun s => ⟨s.re / √a.size, s.im / √a.size⟩) ∧
        Phasor.norm row = 1 ∧ weightsOf row = a.beam d ∧
        (k < indexLimit → weights cb (.number (.integer k)) = .ok (a.beam d)) ∧
        (∀ s : List (Phasor ℝ), s.length = a.size → ∃ g : WithBot ℝ,
          Gain.beamforming s (weightsOf row) = .ok g ∧ Gain.codeword row s = .ok g) ∧
        ∃ j, best cb (a.steering d) = .ok (j, ((10 * Real.logb 10 a.size : ℝ) : WithBot ℝ)) ∧
          j ≤ k ∧ IsLeast (Equivalents rows row) j := by
  set rows := (grid θ φ).map fun d => Phasor.normalize (a.steering d) with hrows
  have hrow : ∀ row ∈ rows, row.length = a.size ∧ Phasor.energy row = 1 := by
    rintro _ hmem
    obtain ⟨d, -, rfl⟩ := List.mem_map.mp hmem
    exact ⟨by simp, energy_entry h d⟩
  obtain ⟨cb, hcb, htable⟩ := exists_table fun row hmem => (hrow row hmem).1
  refine ⟨rows, cb, ofGrid_eq_ok a θ φ, by simp [hrows], hcb, fun k d hd => ?_⟩
  have hk : rows[k]? = some (Phasor.normalize (a.steering d)) := by
    rw [hrows, List.getElem?_map, hd]
    rfl
  refine ⟨_, hk, entry_eq a d, ?_, weightsOf_entry h d, fun hlimit => ?_, fun s hs => ?_, ?_⟩
  · rw [Phasor.norm_eq_sqrt_energy, energy_entry h d, Real.sqrt_one]
  · rw [weights, htable]
    simp only [Value.coerceInteger, ok_bind, screenIndex_natCast hlimit, row?_natCast, hk]
    rw [weightsOf_entry h d]
    rfl
  · have hconj : weightsOf (Phasor.normalize (a.steering d))
        = (Phasor.normalize (a.steering d)).map Phasor.conj := by
      rw [weightsOf, Phasor.normalize_map_conj,
        Phasor.normalize_of_energy_eq_one (energy_entry h d)]
    have hlength : s.length = (Phasor.normalize (a.steering d)).length := by simp [hs]
    rw [codeword_eq_beamforming hlength, hconj]
    exact ⟨_, Gain.beamforming_eq_ok (by simp [hs]), Gain.beamforming_eq_ok (by simp [hs])⟩
  · obtain ⟨j, hj, hleast⟩ := exists_best h d htable hrow (List.mem_of_getElem? hk)
    have hmem : k ∈ Equivalents rows (Phasor.normalize (a.steering d)) :=
      ⟨⟨1, 0⟩, Phasor.abs_one, by rw [Phasor.map_one_mul, hk]⟩
    exact ⟨j, hj, hleast.2 hmem, hleast⟩

/-- At a pole all azimuths have one unit vector. -/
theorem vector_pole (p : ℝ) : (Direction.normalized ⟨0, p⟩).vector = ⟨0, 0, 1⟩ := by
  have hclamp : Angle.clamp (0 : ℝ) = 0 := Angle.clamp_of_mem ⟨le_rfl, Real.pi_pos.le⟩
  rw [Direction.vector_normalized, hclamp, Point.ofAngles_real]
  simp

/-- Two elements and a pole with two azimuths: the second entry is found as the first one. -/
theorem exists_ofGrid_pole :
    let a : PhasedArray ℝ := .of (.points [⟨0, 0, 0⟩, ⟨1 / 2, 0, 0⟩]) .isotropic
    0 < a.size ∧ ∃ rows, ∃ cb : Codebook ℝ,
      ofGrid a [0] [0, 1] = .ok (rows, grid [0] [0, 1]) ∧
      Tensor.ofShape? [rows.length, 2] rows.flatten = some cb ∧ rows.length = 2 ∧
      ∃ d, (grid [(0 : ℝ)] [0, 1])[1]? = some d ∧
        weights cb (.number (.integer 1)) = .ok (a.beam d) ∧
        best cb (a.steering d) = .ok (0, ((10 * Real.logb 10 2 : ℝ) : WithBot ℝ)) := by
  intro a
  have hsize : (a.size : ℝ) = 2 := Nat.cast_two
  obtain ⟨rows, cb, hgrid, hlength, hcb, hentry⟩ := exists_ofGrid a Nat.two_pos [0] [0, 1]
  obtain ⟨first, hfirst, hfirst', -⟩ := hentry 0 _ rfl
  obtain ⟨row, -, hrow, -, -, hweights, -, j, hj, -, hleast⟩ := hentry 1 _ rfl
  have hsame : row = first := by
    rw [hrow, hfirst', PhasedArray.steering_congr ((vector_pole 1).trans (vector_pole 0).symm)]
  have hmem : 0 ∈ Equivalents rows row :=
    ⟨⟨1, 0⟩, Phasor.abs_one, by rw [Phasor.map_one_mul, hsame, hfirst]⟩
  have hzero : j = 0 := Nat.le_zero.mp (hleast.2 hmem)
  rw [hsize, hzero] at hj
  exact ⟨Nat.two_pos, rows, cb, hgrid, hcb, hlength, _, rfl, hweights (by decide), hj⟩

end Codebook

end AntennaArray
