import Mathlib.Data.List.FinRange
import AntennaArray.Proofs.Alignment
import AntennaArray.Proofs.ArrayGain
import AntennaArray.Proofs.LocalFrame
import AntennaArray.Proofs.PanelAsPoints
import AntennaArray.Proofs.Sweep

/-!
# Relative positions of elements

Only where elements stand relative to one another enters the gain of an array. Moved by one vector,
all phases of a plane wave are turned alike (`PhasedArray.SameUpToPhase`), which drops out of the
length of a sum of products. In another order the elements have the same gains as long as each one
keeps its weight (`PhasedArray.IsRearranged`): the products are the same ones, and their sum does
not go by their order.
-/

namespace AntennaArray

open Scalar

/-! ## Lists in another order -/

section Rearranged

variable {α β γ : Type} {n : ℕ} (σ : Equiv.Perm (Fin n))

/-- A list in another order: at an index stands the entry that stood where the permutation takes the
index. -/
def rearrange (xs : List α) (h : xs.length = n) : List α :=
  List.ofFn fun i => xs.get ((σ i).cast h.symm)

@[simp] theorem length_rearrange (xs : List α) (h : xs.length = n) :
    (rearrange σ xs h).length = n :=
  List.length_ofFn

/-- The entries are the same ones. -/
theorem rearrange_perm (xs : List α) (h : xs.length = n) : (rearrange σ xs h).Perm xs := by
  subst h
  calc (rearrange σ xs rfl).Perm (List.ofFn xs.get) := σ.ofFn_comp_perm xs.get
    _ = xs := List.ofFn_get xs

theorem map_rearrange (f : α → β) (xs : List α) (h : xs.length = n) :
    (rearrange σ xs h).map f = rearrange σ (xs.map f) (by rw [List.length_map, h]) := by
  rw [rearrange, List.map_ofFn, rearrange]
  congr 1
  funext i
  simp

/-- Rearranged alike, two lists pair up the same entries. -/
theorem zipWith_rearrange (f : α → β → γ) (xs : List α) (ys : List β) (hx : xs.length = n)
    (hy : ys.length = n) :
    (rearrange σ xs hx).zipWith f (rearrange σ ys hy)
      = rearrange σ (xs.zipWith f ys) (by rw [List.length_zipWith, hx, hy, min_self]) := by
  apply List.ext_getElem
  · simp
  · intro i _ _
    simp [rearrange]

end Rearranged

/-! ## Phasors -/

namespace Phasor

variable {xs ys : List (Phasor ℝ)}

/-- Angles are added by multiplying. -/
theorem cis_add (s t : ℝ) : cis (s + t) = (cis s).mul (cis t) := by
  apply toComplex_injective
  rw [toComplex_mul, toComplex_cis, toComplex_cis, toComplex_cis, Complex.ofReal_add, add_mul,
    Complex.exp_add]

/-- A factor of length one drops out of the length of an inner product. -/
theorem abs_inner_map_mul {z : Phasor ℝ} (hz : z.abs = 1) (xs ys : List (Phasor ℝ)) :
    (inner (xs.map z.mul) ys).abs = (inner xs ys).abs := by
  rw [abs_eq_norm, toComplex_inner_map_mul, norm_mul, ← abs_eq_norm, hz, one_mul, abs_eq_norm]

/-- A sum does not go by the order. -/
theorem sum_of_perm (h : xs.Perm ys) : sum xs = sum ys := by
  apply toComplex_injective
  rw [toComplex_sum, toComplex_sum, (h.map toComplex).sum_eq]

theorem norm_of_perm (h : xs.Perm ys) : norm xs = norm ys := by
  rw [norm, norm, sum_real, sum_real, (h.map fun x => square x.abs).sum_eq]

variable {n : ℕ} (σ : Equiv.Perm (Fin n))

/-- Rearranged alike, two vectors have the same inner product. -/
theorem inner_rearrange (hx : xs.length = n) (hy : ys.length = n) :
    inner (rearrange σ xs hx) (rearrange σ ys hy) = inner xs ys := by
  rw [inner, zipWith_rearrange]
  exact sum_of_perm (rearrange_perm σ _ _)

theorem normalize_rearrange (h : xs.length = n) :
    normalize (rearrange σ xs h)
      = rearrange σ (normalize xs) (by rw [length_normalize, h]) := by
  simp only [normalize, norm_of_perm (rearrange_perm σ xs h), map_rearrange]

end Phasor

/-! ## Arrays -/

namespace PhasedArray

variable {a b : PhasedArray ℝ}

/-- The steering vectors of two arrays differ by a phase in every direction, and the arrays have
equal gains with any weights and with none. -/
structure SameUpToPhase (a b : PhasedArray ℝ) : Prop where
  steering : ∀ d, ∃ z : Phasor ℝ, z.abs = 1 ∧ b.steering d = (a.steering d).map z.mul
  beamforming : ∀ d ws, (Gain.beamforming (b.steering d) ws : Attempt (WithBot ℝ)) =
    Gain.beamforming (a.steering d) ws
  composite : ∀ d ws, (Gain.composite b d ws : Attempt (WithBot ℝ)) = Gain.composite a d ws
  sweep : ∀ ws θ φ, (b.sweep ws θ φ : Attempt (Tensor (WithBot ℝ))) = a.sweep ws θ φ

/-- The vectors of an array are those of another one in another order, and the gains are equal if
the weights are put in that order as well. -/
structure IsRearranged (a : PhasedArray ℝ) (σ : Equiv.Perm (Fin a.size)) (b : PhasedArray ℝ) :
    Prop where
  steering : ∀ d, b.steering d = rearrange σ (a.steering d) (a.length_steering d)
  beam : ∀ d, b.beam d = rearrange σ (a.beam d) (a.length_beam d)
  composite : ∀ d ws (h : ws.length = a.size),
    (Gain.composite b d (some (rearrange σ ws h)) : Attempt (WithBot ℝ)) =
      Gain.composite a d (some ws)
  compositeBeam : ∀ d, (Gain.composite b d none : Attempt (WithBot ℝ)) = Gain.composite a d none
  sweep : ∀ ws (h : ws.length = a.size) θ φ,
    (b.sweep (rearrange σ ws h) θ φ : Attempt (Tensor (WithBot ℝ))) = a.sweep ws θ φ

/-- Fields go by the element and its rotation. -/
theorem field_congr (hrotation : b.rotation = a.rotation) (hradiator : b.radiator = a.radiator)
    (d : Direction ℝ) : b.field d = a.field d := by
  rw [field, field, hrotation, hradiator]

/-- At points that are all moved by one vector, a plane wave has phases that are all turned by one
angle. -/
theorem front_map_add (ps : List (Point ℝ)) (v u : Point ℝ) :
    front (ps.map (·.add v)) u
      = (front ps u).map (Phasor.cis (-(ofInt 2 * pi) * v.dot u)).mul := by
  rw [front, front, List.map_map, List.map_map]
  apply List.map_congr_left
  intro p _
  rw [Function.comp_apply, Function.comp_apply, ← Phasor.cis_add]
  congr 1
  simp only [Point.add, Point.dot_real]
  ring

/-- Arrays whose points differ by one vector, and nothing else, differ by a phase. -/
theorem sameUpToPhase_of_points {v : Point ℝ} (hsize : 0 < a.size)
    (hpoints : b.points = a.points.map (·.add v)) (hrotation : b.rotation = a.rotation)
    (hradiator : b.radiator = a.radiator) : a.SameUpToPhase b := by
  have hcount : b.size = a.size := by
    rw [← length_points, hpoints, List.length_map, length_points]
  have hsteering (d : Direction ℝ) : ∃ z : Phasor ℝ, z.abs = 1 ∧
      b.steering d = (a.steering d).map z.mul :=
    ⟨_, Phasor.abs_cis _, by rw [steering, wave, hpoints, front_map_add]; rfl⟩
  have hfactor (ws : List (Phasor ℝ)) (d : Direction ℝ) :
      (Phasor.inner (b.steering d) ws).abs = (Phasor.inner (a.steering d) ws).abs := by
    obtain ⟨z, hz, hsteer⟩ := hsteering d
    rw [hsteer, Phasor.abs_inner_map_mul hz]
  have hfield := field_congr hrotation hradiator
  have hbeamforming (d : Direction ℝ) (ws : List (Phasor ℝ)) :
      (Gain.beamforming (b.steering d) ws : Attempt (WithBot ℝ)) =
        Gain.beamforming (a.steering d) ws := by
    simp only [Gain.beamforming, Gain.pairing, length_steering, hcount, hfactor]
  have hweights (ws : List (Phasor ℝ)) : b.weights ws = a.weights ws := by
    rw [weights, weights, hcount]
  refine ⟨hsteering, hbeamforming, fun d ws => ?_, fun ws θ φ => ?_⟩
  · cases ws with
    | some ws => simp only [Gain.composite, hweights, hbeamforming, hfield]
    | none =>
      -- pointed in the direction, either array has its number of elements as array factor
      have hbeam : (Gain.beamforming (b.steering d) (b.beam d) : Attempt (WithBot ℝ)) =
          Gain.beamforming (a.steering d) (a.beam d) := by
        rw [Gain.beamforming_steering d (length_beam b d),
          Gain.beamforming_steering d (length_beam a d), factor_beam hsize,
          factor_beam (hcount ▸ hsize), hcount]
      simp only [Gain.composite, hfield, pure_bind, hbeam]
  · have hgain (vs : List (Phasor ℝ)) :
        (b.sweepGain b.points vs : Direction ℝ → WithBot ℝ) = a.sweepGain a.points vs := by
      funext d
      have hinner : (Phasor.inner (wave b.points d) vs).abs =
          (Phasor.inner (wave a.points d) vs).abs := hfactor vs d
      simp only [sweepGain, hinner, hfield]
    simp only [sweep_eq_gridMap, hweights, hgain]

/-- Arrays whose points differ in their order, and nothing else, have equal gains with weights in
that order. -/
theorem isRearranged_of_points (σ : Equiv.Perm (Fin a.size))
    (hpoints : b.points = rearrange σ a.points a.length_points)
    (hrotation : b.rotation = a.rotation) (hradiator : b.radiator = a.radiator) :
    a.IsRearranged σ b := by
  have hcount : b.size = a.size := by rw [← length_points, hpoints, length_rearrange]
  have hsteering (d : Direction ℝ) :
      b.steering d = rearrange σ (a.steering d) (a.length_steering d) := by
    rw [steering, wave, front, hpoints, map_rearrange]
    rfl
  have hbeam (d : Direction ℝ) : b.beam d = rearrange σ (a.beam d) (a.length_beam d) := by
    simp only [beam, hsteering, map_rearrange, Phasor.normalize_rearrange]
  have hfactor (ws : List (Phasor ℝ)) (h : ws.length = a.size) (d : Direction ℝ) :
      b.factor (rearrange σ ws h) d = a.factor ws d := by
    rw [factor, hsteering, Phasor.inner_rearrange, factor]
  have hamplitude (d : Direction ℝ) : b.amplitude d = a.amplitude d := by
    rw [amplitude, amplitude, hrotation, hradiator]
  have hlength (ws : List (Phasor ℝ)) (h : ws.length = a.size) :
      (rearrange σ ws h).length = b.size := by
    rw [length_rearrange, hcount]
  have hcomposite (d : Direction ℝ) (ws : List (Phasor ℝ)) (h : ws.length = a.size) :
      (Gain.composite b d (some (rearrange σ ws h)) : Attempt (WithBot ℝ)) =
        Gain.composite a d (some ws) := by
    rw [Gain.composite_eq (hlength ws h), Gain.composite_eq h, hfactor, hrotation, hradiator]
  refine ⟨hsteering, hbeam, hcomposite, fun d => ?_, fun ws h θ φ => ?_⟩
  · rw [Gain.composite_none, hbeam, hcomposite, ← Gain.composite_none]
  · have hgain : (b.sweepGain b.points (rearrange σ ws h) : Direction ℝ → WithBot ℝ) =
        a.sweepGain a.points ws := by
      funext d
      rw [sweepGain_eq, sweepGain_eq, hfactor, hamplitude]
    rw [sweep_eq_ok (hlength ws h), sweep_eq_ok h, hgain]

end PhasedArray

/-! ## Tables of points -/

namespace Placement

variable {t s : Tensor ℝ} {p : Placement ℝ}

/-- A table that is accepted has three columns and at least one row, and the points in its rows are
in cells of their own. -/
theorem of_ofTensor (h : ofTensor t = .ok p) : (∃ n, t.shape = [n, 3]) ∧
    triples t.toList ≠ [] ∧ ((triples t.toList).map cell).Nodup ∧
      p = .points (triples t.toList) := by
  rw [ofTensor] at h
  split at h
  · next n hshape =>
    rw [ofPoints] at h
    split at h
    · cases h
    · next hempty =>
      split at h
      · cases h
      · split at h
        · next hcells =>
          cases h
          exact ⟨⟨n, hshape⟩, by simpa using hempty, hcells, rfl⟩
        · cases h
  · cases h

/-- What is accepted has an element in each row. -/
theorem size_pos_of_ofTensor (h : ofTensor t = .ok p) : 0 < p.size := by
  obtain ⟨-, hsome, -, rfl⟩ := of_ofTensor h
  exact List.length_pos_iff.mpr hsome

/-- The rows of a table that is accepted are accepted in any order. -/
theorem ofTensor_rearranged (hs : ofTensor s = .ok p) (σ : Equiv.Perm (Fin p.size))
    (hshape : t.shape = s.shape)
    (hrows : triples t.toList = rearrange σ p.toPoints p.length_toPoints) :
    ofTensor t = .ok (.points (rearrange σ p.toPoints p.length_toPoints)) := by
  obtain ⟨⟨n, hn⟩, hsome, hcells, rfl⟩ := of_ofTensor hs
  have hperm : (triples t.toList).Perm (triples s.toList) := hrows ▸ rearrange_perm σ _ _
  rw [← hrows]
  exact ofTensor_of_nodup (hshape.trans hn) (fun h => hsome (h ▸ hperm).nil_eq.symm)
    ((hperm.map cell).nodup_iff.mpr hcells)

/-- A placement that is accepted is not turned. -/
theorem rotation_of_ofTensor (h : ofTensor t = .ok p) : p.rotation = .ofAngles zero zero := by
  obtain ⟨-, -, -, rfl⟩ := of_ofTensor h
  rfl

/-- Elements whose places are accepted may be moved by one vector, and then only the phase of the
steering vectors changes. Their rows may also be put in another order: they are accepted again, and
the vectors and the gains are the same ones in that order. -/
theorem relativePositions (hs : ofTensor s = .ok p) :
    (∀ t q v, ofTensor t = .ok q → q.toPoints = p.toPoints.map (·.add v) →
      ∀ r : Radiator ℝ, PhasedArray.SameUpToPhase ⟨p, r⟩ ⟨q, r⟩) ∧
    ∀ (σ : Equiv.Perm (Fin p.size)) (t : Tensor ℝ), t.shape = s.shape →
      triples t.toList = rearrange σ p.toPoints p.length_toPoints →
      ∃ q, ofTensor t = .ok q ∧ q.toPoints = rearrange σ p.toPoints p.length_toPoints ∧
        ∀ r : Radiator ℝ, PhasedArray.IsRearranged ⟨p, r⟩ σ ⟨q, r⟩ := by
  refine ⟨fun t q v ht hmoved r => ?_, fun σ t hshape hrows => ?_⟩
  · refine PhasedArray.sameUpToPhase_of_points (size_pos_of_ofTensor hs) hmoved ?_ rfl
    exact (rotation_of_ofTensor ht).trans (rotation_of_ofTensor hs).symm
  · refine ⟨_, ofTensor_rearranged hs σ hshape hrows, rfl, fun r => ?_⟩
    exact PhasedArray.isRearranged_of_points (a := ⟨p, r⟩) σ rfl (rotation_of_ofTensor hs).symm rfl

/-- The table of two points on the first axis that are farther apart than the width of the grid. -/
theorem ofTensor_pair {x y : ℝ} (h : gridWidth < |x - y|) :
    ofTensor (Placement.points [⟨x, 0, 0⟩, ⟨y, 0, 0⟩]).table
      = .ok (.points [⟨x, 0, 0⟩, ⟨y, 0, 0⟩]) := by
  refine ofTensor_table Nat.two_pos ?_
  have hcells : cell (⟨x, 0, 0⟩ : Point ℝ) ≠ cell ⟨y, 0, 0⟩ := by
    intro hcell
    exact absurd (abs_sub_le_of_nearest_eq (Prod.mk.inj hcell).1) (not_le.mpr h)
  simpa [toPoints] using hcells

/-- Two elements half a wavelength apart, moved by one wavelength and taken in the other order. -/
theorem relativePositions_pair :
    let pair (x y : ℝ) : Placement ℝ := .points [⟨x, 0, 0⟩, ⟨y, 0, 0⟩]
    ofTensor (pair 0 (1 / 2)).table = .ok (pair 0 (1 / 2)) ∧
      ofTensor (pair 1 (3 / 2)).table = .ok (pair 1 (3 / 2)) ∧
      ∀ r : Radiator ℝ, PhasedArray.SameUpToPhase ⟨pair 0 (1 / 2), r⟩ ⟨pair 1 (3 / 2), r⟩ ∧
        ∀ (d : Direction ℝ) (w v : Phasor ℝ),
          (Gain.composite ⟨pair (1 / 2) 0, r⟩ d (some [v, w]) : Attempt (WithBot ℝ)) =
            Gain.composite ⟨pair 0 (1 / 2), r⟩ d (some [w, v]) := by
  intro pair
  have hfirst : ofTensor (pair 0 (1 / 2)).table = .ok (pair 0 (1 / 2)) :=
    ofTensor_pair (by rw [gridWidth_real]; norm_num)
  have hmoved : ofTensor (pair 1 (3 / 2)).table = .ok (pair 1 (3 / 2)) :=
    ofTensor_pair (by rw [gridWidth_real]; norm_num)
  have hswapped : ofTensor (pair (1 / 2) 0).table = .ok (pair (1 / 2) 0) :=
    ofTensor_pair (by rw [gridWidth_real]; norm_num)
  obtain ⟨hphase, horder⟩ := relativePositions hfirst
  refine ⟨hfirst, hmoved, fun r => ⟨hphase _ _ ⟨1, 0, 0⟩ hmoved ?_ r, fun d w v => ?_⟩⟩
  · simp only [pair, toPoints, List.map, Point.add]
    norm_num
  · let swap : Equiv.Perm (Fin 2) := Equiv.swap 0 1
    obtain ⟨q, hq, -, hsame⟩ := horder swap (pair (1 / 2) 0).table rfl rfl
    cases hswapped.symm.trans hq
    exact (hsame r).composite d [w, v] rfl

end Placement

end AntennaArray
