import AntennaArray.Proofs.Exact
import AntennaArray.Proofs.PointSearch
import AntennaArray.Proofs.Rotation
import AntennaArray.Proofs.Vectorized

/-!
# Directions nearest by angle

Between unit vectors the distance is a chord: twice the sine of half the angle, which grows with the
angle up to opposite vectors (`distance_eq`). So an exact search by distance is one by angle
(`exists_query`). Only unit vectors are compared, so full turns of an azimuth change nothing, nor
does the azimuth at a pole.
-/

namespace AntennaArray

open Scalar

/-! ## Chords and angles -/

namespace Direction

/-- The vector of a direction is a unit vector. -/
theorem sq_norm_vector (d : Direction ℝ) : d.vector.dot d.vector = 1 := by
  simp only [vector, Point.ofAngles_real, Point.dot_real]
  linear_combination Real.sin_sq_add_cos_sq d.theta
    + Real.sin d.theta ^ 2 * Real.sin_sq_add_cos_sq d.phi

/-- The angle between two directions along the great circle through them. -/
noncomputable def arc (d e : Direction ℝ) : ℝ := Real.arccos (d.vector.dot e.vector)

theorem arc_mem (d e : Direction ℝ) : d.arc e ∈ Set.Icc 0 Real.pi :=
  ⟨Real.arccos_nonneg _, Real.arccos_le_pi _⟩

theorem cos_arc (d e : Direction ℝ) : Real.cos (d.arc e) = d.vector.dot e.vector := by
  have hd := d.sq_norm_vector
  have he := e.sq_norm_vector
  rw [Point.dot_real] at hd he
  apply Real.cos_arccos <;> rw [Point.dot_real]
  · nlinarith [sq_nonneg (d.vector.x + e.vector.x), sq_nonneg (d.vector.y + e.vector.y),
      sq_nonneg (d.vector.z + e.vector.z)]
  · nlinarith [sq_nonneg (d.vector.x - e.vector.x), sq_nonneg (d.vector.y - e.vector.y),
      sq_nonneg (d.vector.z - e.vector.z)]

@[simp] theorem arc_self (d : Direction ℝ) : d.arc d = 0 := by
  rw [arc, sq_norm_vector, Real.arccos_one]

/-- Directions without an angle between them have one unit vector. -/
theorem vector_eq_of_arc_eq_zero {d e : Direction ℝ} (h : d.arc e = 0) :
    d.vector = e.vector := by
  have hd := d.sq_norm_vector
  have he := e.sq_norm_vector
  have hdot : d.vector.dot e.vector = 1 := by rw [← cos_arc, h, Real.cos_zero]
  rw [Point.dot_real] at hd he hdot
  have hsum : (d.vector.x - e.vector.x) ^ 2 + (d.vector.y - e.vector.y) ^ 2
      + (d.vector.z - e.vector.z) ^ 2 = 0 := by
    linear_combination hd + he - 2 * hdot
  have hx : d.vector.x = e.vector.x := by nlinarith
  have hy : d.vector.y = e.vector.y := by nlinarith
  have hz : d.vector.z = e.vector.z := by nlinarith
  cases hu : d.vector
  cases hv : e.vector
  simp_all

/-- Full turns are added to the azimuth. -/
structure IsTurned (d e : Direction ℝ) : Prop where
  theta : e.theta = d.theta
  phi : ∃ n : ℤ, e.phi = d.phi + n * (2 * Real.pi)

theorem IsTurned.vector_eq {d e : Direction ℝ} (h : d.IsTurned e) : e.vector = d.vector := by
  obtain ⟨htheta, n, hphi⟩ := h
  simp only [vector, Point.ofAngles_real, htheta, hphi, Real.cos_add_int_mul_two_pi,
    Real.sin_add_int_mul_two_pi]

theorem map_vector_of_turned {ds es : List (Direction ℝ)} (h : List.Forall₂ IsTurned ds es) :
    es.map vector = ds.map vector := by
  induction h with
  | nil => rfl
  | cons hd _ ih => rw [List.map_cons, List.map_cons, hd.vector_eq, ih]

end Direction

namespace DirectionIndex

theorem distance_real (p q : Point ℝ) :
    distance p q = √((p.x - q.x) ^ 2 + (p.y - q.y) ^ 2 + (p.z - q.z) ^ 2) := by
  simp only [distance, square_real]
  rfl

theorem angle_real (r : ℝ) : angle r = 2 * Real.arcsin (clip 0 1 (r / 2)) := by
  simp only [angle, ofInt_real, zero_real, one_real]
  norm_num
  rfl

/-- The distance between unit vectors is the chord of the angle between them. -/
theorem distance_eq (d e : Direction ℝ) :
    distance d.vector e.vector = 2 * Real.sin (d.arc e / 2) := by
  have hd := d.sq_norm_vector
  have he := e.sq_norm_vector
  have hhalf : 0 ≤ Real.sin (d.arc e / 2) := by
    obtain ⟨hlow, hhigh⟩ := d.arc_mem e
    exact Real.sin_nonneg_of_nonneg_of_le_pi (by linarith) (by linarith [Real.pi_pos])
  have hsq : (d.vector.x - e.vector.x) ^ 2 + (d.vector.y - e.vector.y) ^ 2
      + (d.vector.z - e.vector.z) ^ 2 = (2 * Real.sin (d.arc e / 2)) ^ 2 := by
    have hsin : Real.sin (d.arc e / 2) ^ 2 = 1 / 2 - Real.cos (d.arc e) / 2 := by
      rw [Real.sin_sq_eq_half_sub, mul_div_cancel₀ _ two_ne_zero]
    rw [mul_pow, hsin, Direction.cos_arc]
    rw [Point.dot_real] at *
    linear_combination hd + he
  rw [distance_real, hsq, Real.sqrt_sq (by positivity)]

/-- The angle that belongs to the distance is the angle between the directions. -/
theorem angle_distance (d e : Direction ℝ) : angle (distance d.vector e.vector) = d.arc e := by
  obtain ⟨hlow, hhigh⟩ := d.arc_mem e
  have hsin : Real.sin (d.arc e / 2) ∈ Set.Icc 0 1 :=
    ⟨Real.sin_nonneg_of_nonneg_of_le_pi (by linarith) (by linarith [Real.pi_pos]),
      Real.sin_le_one _⟩
  rw [angle_real, distance_eq, mul_div_cancel_left₀ _ two_ne_zero, clip_of_mem hsin,
    Real.arcsin_sin (by linarith [Real.pi_pos]) (by linarith)]
  ring

/-- A greater distance belongs to a greater angle. -/
theorem arc_le_arc_iff (d d' e : Direction ℝ) :
    d.arc e ≤ d'.arc e ↔ distance d.vector e.vector ≤ distance d'.vector e.vector := by
  obtain ⟨hlow, hhigh⟩ := d.arc_mem e
  obtain ⟨hlow', hhigh'⟩ := d'.arc_mem e
  rw [distance_eq, distance_eq, mul_le_mul_iff_right₀ two_pos,
    Real.strictMonoOn_sin.le_iff_le ⟨by linarith [Real.pi_pos], by linarith⟩
      ⟨by linarith [Real.pi_pos], by linarith⟩, div_le_div_iff_of_pos_right two_pos]

/-! ## Building and asking -/

variable {t t' : Tensor ℝ} {aim aim' : Aim ℝ} {d d' : Direction ℝ} {K k : ℕ}
  {search search' : PointSearch ℝ}

theorem length_pairs (xs : List ℝ) : (pairs xs).length = xs.length / 2 := by
  fun_induction pairs xs with
  | case1 t p rest ih =>
    rw [List.length_cons, ih, List.length_cons, List.length_cons]
    omega
  | case2 xs hxs =>
    have hshort : xs.length < 2 := by
      by_contra hlong
      obtain ⟨t, p, rest, rfl⟩ : ∃ t p rest, xs = t :: p :: rest := by
        match xs, not_lt.mp hlong with
        | t :: p :: rest, _ => exact ⟨t, p, rest, rfl⟩
      exact hxs t p rest rfl
    simp [Nat.div_eq_of_lt hshort]

theorem build_eq_ok (h : t.shape = [K, 2]) (hK : 0 < K) :
    build t = .ok ⟨(pairs t.toList).map Direction.vector⟩ := by
  have hall : t.toList.all isFinite = true := by simp
  have hsome : t.toList.isEmpty = false := by
    rw [List.isEmpty_eq_false_iff, ← List.length_pos_iff, Tensor.length_toList_of_shape h]
    omega
  simp only [build, h, hall, hsome]
  rfl

theorem queryBy_eq_ok {index : DirectionIndex ℝ} (haim : aim.single = .ok d)
    (hk : k ≤ index.vectors.length) :
    index.queryBy search aim (.number (.integer k))
      = .ok ((search index.vectors d.vector k).map fun (i, r) => (i, angle r)) := by
  have hpair : overDirections id (.scalar d.theta) (.scalar d.phi) = .ok (.scalar d) :=
    Tensor.combine_scalar _ _ _
  have hrank : (Tensor.scalar d).rank < Tensor.axisLimit := by
    show 0 < 64
    decide
  have hvectors : overVectors (.scalar d.theta) (.scalar d.phi) = .ok (.scalar d.vector) := by
    rw [overVectors_eq hpair, if_pos hrank, Tensor.map_scalar]
  have hcount : countOf index.vectors.length (.number (.integer k)) = .ok k := by
    simp [countOf, hk]
  have hlist : (Tensor.scalar d.vector).toList = [d.vector] := rfl
  rw [queryBy, Aim.pair_of_single haim, ok_bind]
  dsimp only
  rw [hvectors, ok_bind, hlist]
  have hdefined : [d.vector].any isUndefined = false := rfl
  simp only [hdefined, hcount, ok_bind]
  rfl

/-! ## Answers -/

/-- An answer names as many directions as were asked for, each once, with the angles between them
and the given one in ascending order; no direction that is left out is at a smaller angle. -/
structure IsAnswer (ds : List (Direction ℝ)) (d : Direction ℝ) (count : ℕ)
    (answer : List (ℕ × ℝ)) : Prop where
  length : answer.length = count
  nodup : (answer.map Prod.fst).Nodup
  sorted : answer.Pairwise fun a b => a.2 ≤ b.2
  angle : ∀ i α, (i, α) ∈ answer → ∃ e, ds[i]? = some e ∧ α = e.arc d ∧ α ∈ Set.Icc 0 Real.pi
  nearest : ∀ (j : ℕ) e, ds[j]? = some e → j ∉ answer.map Prod.fst → ∀ a ∈ answer, a.2 ≤ e.arc d

theorem Finds.isAnswer {ds : List (Direction ℝ)} {found : List (ℕ × ℝ)}
    (h : Finds (ds.map Direction.vector) d.vector k found) :
    IsAnswer ds d k (found.map fun (i, r) => (i, DirectionIndex.angle r)) := by
  have hindices : (found.map fun (i, r) => (i, DirectionIndex.angle r)).map Prod.fst
      = found.map Prod.fst := by
    simp [Function.comp_def]
  -- a distance that was found is the chord of a direction
  have hchord {i : ℕ} {r : ℝ} (hmem : (i, r) ∈ found) :
      ∃ e, ds[i]? = some e ∧ r = distance e.vector d.vector := by
    obtain ⟨p, hp, hr⟩ := h.exists_point hmem
    rw [List.getElem?_map, Option.map_eq_some_iff] at hp
    obtain ⟨e, he, rfl⟩ := hp
    exact ⟨e, he, hr⟩
  refine ⟨by rw [List.length_map, h.length], hindices ▸ h.nodup, ?_, ?_, ?_⟩
  · refine List.pairwise_map.mpr (h.sorted.imp_of_mem ?_)
    rintro ⟨i, r⟩ ⟨j, s⟩ hi hj hle
    obtain ⟨e, -, rfl⟩ := hchord hi
    obtain ⟨e', -, rfl⟩ := hchord hj
    dsimp only at hle ⊢
    rw [angle_distance, angle_distance]
    exact (arc_le_arc_iff e e' d).mpr hle
  · intro i α hmem
    obtain ⟨⟨j, r⟩, hfound, heq⟩ := List.mem_map.mp hmem
    cases heq
    obtain ⟨e, he, rfl⟩ := hchord hfound
    rw [angle_distance]
    exact ⟨e, he, rfl, e.arc_mem d⟩
  · intro j e he hj a ha
    obtain ⟨⟨i, r⟩, hfound, rfl⟩ := List.mem_map.mp ha
    rw [hindices] at hj
    have hle := h.le_of_not_mem (by rw [List.getElem?_map, he]; rfl) hj _ hfound
    obtain ⟨e', -, rfl⟩ := hchord hfound
    dsimp only at hle ⊢
    rw [angle_distance]
    exact (arc_le_arc_iff e' e d).mpr hle

namespace IsAnswer

variable {ds : List (Direction ℝ)} {count : ℕ} {answer : List (ℕ × ℝ)}

/-- A direction that is among the given ones is found first, or another one with its unit vector. -/
theorem exists_head (h : IsAnswer ds d count answer) (hcount : 1 ≤ count) (hd : d ∈ ds) :
    ∃ i e, answer.head? = some (i, 0) ∧ ds[i]? = some e ∧ e.vector = d.vector := by
  obtain ⟨j, hj⟩ := List.mem_iff_getElem?.mp hd
  obtain ⟨⟨i, α⟩, rest, hanswer⟩ := List.exists_cons_of_length_pos (h.length ▸ hcount)
  obtain ⟨e, he, hα, hmem⟩ := h.angle i α (by rw [hanswer]; exact List.mem_cons_self)
  have hle : α ≤ 0 := by
    by_cases hfound : j ∈ answer.map Prod.fst
    · obtain ⟨⟨j', β⟩, hβ, rfl⟩ := List.mem_map.mp hfound
      obtain ⟨e', he', hβ', -⟩ := h.angle j' β hβ
      have hzero : β = 0 := by
        rw [hj] at he'
        rw [hβ', ← Option.some.inj he', Direction.arc_self]
      have hsorted := h.sorted
      rw [hanswer] at hsorted hβ
      rcases List.mem_cons.mp hβ with heq | hrest
      · cases heq
        exact hzero.le
      · exact hzero ▸ (List.pairwise_cons.mp hsorted).1 _ hrest
    · have hleft := h.nearest j d hj hfound (i, α) (by rw [hanswer]; exact List.mem_cons_self)
      rwa [Direction.arc_self] at hleft
  have hzero : α = 0 := le_antisymm hle hmem.1
  refine ⟨i, e, by rw [hanswer, List.head?_cons, hzero], he, ?_⟩
  exact Direction.vector_eq_of_arc_eq_zero (hα ▸ hzero)

end IsAnswer

end DirectionIndex

end AntennaArray
