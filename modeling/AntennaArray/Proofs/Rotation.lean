import AntennaArray.Proofs.Exact
import AntennaArray.Rotation

/-!
# Rotated frames over the real numbers

The matrix of a rotation carries points into space, and `Rotation.toLocal` carries directions the
other way by inverse cosines and angles of points. The two agree: the unit vector of the local
direction is the transposed matrix applied to the unit vector of the direction (`vector_toLocal`).
A local direction is canonical, which fixes its azimuth at the poles, and the rotation by nothing
leaves such a direction alone (`toLocal_level`).
-/

namespace AntennaArray

open Scalar

namespace Point

/-- The coordinates of the unit vector with an inclination and an azimuth. -/
theorem ofAngles_real (θ φ : ℝ) :
    ofAngles θ φ = ⟨Real.sin θ * Real.cos φ, Real.sin θ * Real.sin φ, Real.cos θ⟩ := by
  simp only [ofAngles, sin_real, cos_real, one_real]
  congr 1
  exact mul_one _

@[simp] theorem dot_real (p q : Point ℝ) : p.dot q = p.x * q.x + p.y * q.y + p.z * q.z := rfl

end Point

namespace Direction

/-- An inclination in `[0, π]` and an azimuth in `(-π, π]`, which is zero at the poles. -/
structure IsCanonical (d : Direction ℝ) : Prop where
  theta_mem : d.theta ∈ Set.Icc 0 Real.pi
  phi_mem : d.phi ∈ Set.Ioc (-Real.pi) Real.pi
  phi_eq_zero : Real.sin d.theta = 0 → d.phi = 0

end Direction

namespace Rotation

def Matrix.transpose {α : Type} (m : Matrix α) : Matrix α :=
  { first := ⟨m.first.x, m.second.x, m.third.x⟩
    second := ⟨m.first.y, m.second.y, m.third.y⟩
    third := ⟨m.first.z, m.second.z, m.third.z⟩ }

/-- A matrix moves to the other factor of a scalar product as its transpose. -/
theorem dot_apply (m : Matrix ℝ) (p q : Point ℝ) :
    (m.apply p).dot q = p.dot (m.transpose.apply q) := by
  simp only [Matrix.apply, Matrix.transpose, Point.dot_real]
  ring

/-- The cosine and the sine of the downtilt lie on the unit circle. -/
def IsProper (r : Rotation ℝ) : Prop := r.cosTilt ^ 2 + r.sinTilt ^ 2 = 1

theorem isProper_ofAngles (bearing downtilt : ℝ) : (ofAngles bearing downtilt).IsProper :=
  Real.cos_sq_add_sin_sq downtilt

/-- The coordinates in the frame of the panel of a point in space. -/
noncomputable def pullBack (r : Rotation ℝ) (p : Point ℝ) : Point ℝ := r.matrix.transpose.apply p

/-- Carried into space, a point has the scalar product with another that it has in the frame of the
panel with the other pulled back. -/
theorem dot_toGlobal (r : Rotation ℝ) (p q : Point ℝ) :
    (r.toGlobal p).dot q = p.dot (r.pullBack q) :=
  dot_apply r.matrix p q

/-- The unit vector of a direction in the frame of the panel. -/
theorem pullBack_vector (r : Rotation ℝ) (d : Direction ℝ) :
    r.pullBack d.vector =
      ⟨r.cosTilt * Real.sin d.theta * Real.cos (d.phi - r.bearing)
          - r.sinTilt * Real.cos d.theta,
        Real.sin (d.phi - r.bearing) * Real.sin d.theta,
        r.cosTilt * Real.cos d.theta
          + r.sinTilt * Real.cos (d.phi - r.bearing) * Real.sin d.theta⟩ := by
  simp only [pullBack, Matrix.apply, Matrix.transpose, matrix, Direction.vector,
    Point.ofAngles_real, Point.dot_real, sin_real, cos_real, zero_real, Real.cos_sub,
    Real.sin_sub, Point.mk.injEq]
  refine ⟨?_, ?_, ?_⟩ <;> ring

/-- Pulling back keeps the length of a unit vector. -/
theorem pullBack_vector_unit {r : Rotation ℝ} (hr : r.IsProper) (d : Direction ℝ) :
    (r.pullBack d.vector).x ^ 2 + (r.pullBack d.vector).y ^ 2
      + (r.pullBack d.vector).z ^ 2 = 1 := by
  have hθ := Real.sin_sq_add_cos_sq d.theta
  have hφ := Real.sin_sq_add_cos_sq (d.phi - r.bearing)
  have hr' : r.cosTilt ^ 2 + r.sinTilt ^ 2 = 1 := hr
  rw [pullBack_vector]
  generalize Real.sin d.theta = st at *
  generalize Real.cos d.theta = ct at *
  generalize Real.sin (d.phi - r.bearing) = sp at *
  generalize Real.cos (d.phi - r.bearing) = cp at *
  calc (r.cosTilt * st * cp - r.sinTilt * ct) ^ 2 + (sp * st) ^ 2
        + (r.cosTilt * ct + r.sinTilt * cp * st) ^ 2
      = (r.cosTilt ^ 2 + r.sinTilt ^ 2) * (st ^ 2 * cp ^ 2 + ct ^ 2) + sp ^ 2 * st ^ 2 := by ring
    _ = st ^ 2 * (sp ^ 2 + cp ^ 2) + ct ^ 2 := by rw [hr']; ring
    _ = 1 := by rw [hφ, mul_one, hθ]

end Rotation

/-- The direction in which a point stands: its polar angle by height, its azimuth by the angle of
the other two coordinates. -/
noncomputable def Point.direction (p : Point ℝ) : Direction ℝ :=
  ⟨Real.arccos p.z, Complex.arg ⟨p.x, p.y⟩⟩

namespace Point

variable {p : Point ℝ}

/-- The sine of the polar angle of a unit vector is its distance from the axis. -/
theorem sin_arccos_z (hp : p.x ^ 2 + p.y ^ 2 + p.z ^ 2 = 1) :
    Real.sin (Real.arccos p.z) = ‖(⟨p.x, p.y⟩ : ℂ)‖ := by
  rw [Real.sin_arccos, Complex.norm_def, Complex.normSq_mk]
  congr 1
  linarith

/-- The height of a unit vector lies between the poles. -/
theorem z_mem_Icc (hp : p.x ^ 2 + p.y ^ 2 + p.z ^ 2 = 1) : p.z ∈ Set.Icc (-1) 1 := by
  have hz : p.z ^ 2 ≤ 1 := by nlinarith [sq_nonneg p.x, sq_nonneg p.y]
  exact abs_le.mp ((sq_le_one_iff_abs_le_one _).mp hz)

/-- A unit vector is the one in its own direction. -/
theorem vector_direction (hp : p.x ^ 2 + p.y ^ 2 + p.z ^ 2 = 1) : p.direction.vector = p := by
  have hz := z_mem_Icc hp
  rw [Direction.vector, direction, ofAngles_real, sin_arccos_z hp, Complex.norm_mul_cos_arg,
    Complex.norm_mul_sin_arg, Real.cos_arccos hz.1 hz.2]

/-- The direction of a unit vector is canonical. -/
theorem isCanonical_direction (hp : p.x ^ 2 + p.y ^ 2 + p.z ^ 2 = 1) :
    p.direction.IsCanonical where
  theta_mem := ⟨Real.arccos_nonneg _, Real.arccos_le_pi _⟩
  phi_mem := Complex.arg_mem_Ioc _
  phi_eq_zero h := by
    rw [direction, sin_arccos_z hp, norm_eq_zero] at h
    rw [direction, h, Complex.arg_zero]

end Point

/-- A canonical direction is the one in which its own unit vector stands. -/
theorem Direction.IsCanonical.direction_vector {d : Direction ℝ} (h : d.IsCanonical) :
    d.vector.direction = d := by
  obtain ⟨θ, φ⟩ := d
  obtain ⟨hθ, hφ, hpole⟩ := h
  simp only at hθ hφ hpole
  simp only [Direction.vector, Point.ofAngles_real, Point.direction, Direction.mk.injEq]
  refine ⟨Real.arccos_cos hθ.1 hθ.2, ?_⟩
  rcases (Real.sin_nonneg_of_mem_Icc hθ).eq_or_lt with hs | hs
  · -- at a pole every azimuth gives the same point
    rw [hpole hs.symm, ← hs, zero_mul, zero_mul]
    exact Complex.arg_zero
  · have hpolar : (⟨Real.sin θ * Real.cos φ, Real.sin θ * Real.sin φ⟩ : ℂ)
        = (Real.sin θ : ℝ) * (Complex.cos φ + Complex.sin φ * Complex.I) := by
      apply Complex.ext
      · simp [Complex.cos_ofReal_re, -Complex.ofReal_sin]
      · simp [Complex.sin_ofReal_re, -Complex.ofReal_sin]
    rw [hpolar]
    exact Complex.arg_mul_cos_add_sin_mul_I hs hφ

namespace Rotation

/-- A local direction is that of the unit vector pulled back; nothing is clipped. -/
theorem toLocal_eq_direction {r : Rotation ℝ} (hr : r.IsProper) (d : Direction ℝ) :
    r.toLocal d = (r.pullBack d.vector).direction := by
  have hz := Point.z_mem_Icc (pullBack_vector_unit hr d)
  rw [pullBack_vector] at hz ⊢
  simp only [toLocal, Point.direction, sin_real, cos_real, one_real, acos_real, atan2_real]
  rw [clip_of_mem hz]

/-- The unit vector of a local direction is the unit vector pulled back. -/
theorem vector_toLocal {r : Rotation ℝ} (hr : r.IsProper) (d : Direction ℝ) :
    (r.toLocal d).vector = r.pullBack d.vector := by
  rw [toLocal_eq_direction hr, Point.vector_direction (pullBack_vector_unit hr d)]

/-- A local direction is canonical. -/
theorem isCanonical_toLocal {r : Rotation ℝ} (hr : r.IsProper) (d : Direction ℝ) :
    (r.toLocal d).IsCanonical := by
  rw [toLocal_eq_direction hr]
  exact Point.isCanonical_direction (pullBack_vector_unit hr d)

/-! ## The rotation by nothing -/

noncomputable def level : Rotation ℝ := ofAngles 0 0

theorem isProper_level : level.IsProper := isProper_ofAngles 0 0

@[simp] theorem pullBack_level (p : Point ℝ) : level.pullBack p = p := by
  simp [pullBack, Matrix.apply, Matrix.transpose, matrix, level, ofAngles]

@[simp] theorem toGlobal_level (p : Point ℝ) : level.toGlobal p = p := by
  simp [toGlobal, Matrix.apply, matrix, level, ofAngles]

/-- A canonical direction looks the same from a panel that is not turned. -/
theorem toLocal_level {d : Direction ℝ} (h : d.IsCanonical) : level.toLocal d = d := by
  rw [toLocal_eq_direction isProper_level, pullBack_level, h.direction_vector]

end Rotation

end AntennaArray
