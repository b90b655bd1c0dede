import AntennaArray.Proofs.Gain
import AntennaArray.Proofs.Vectorized

/-!
# From the frame of a panel into space

The matrix of a rotation undoes what `Rotation.toLocal` does to a direction (`toGlobal_toLocal`). It
also carries the polarization vector of an element into space. There the vector is upright on the
direction, so it is known by its parts along inclination and azimuth. The polarization angle has
these two parts as its cosine and its sine, so the components of a field are the parts of the
carried vector (`fields_isCarried`).
-/

namespace AntennaArray

open Scalar

/-! ## The matrix and its transpose -/

namespace Rotation

variable {r : Rotation ℝ}

/-- A point that is pulled back and carried into space again is as before. -/
theorem toGlobal_pullBack (hr : r.IsProper) (p : Point ℝ) : r.toGlobal (r.pullBack p) = p := by
  have hbearing := Real.sin_sq_add_cos_sq r.bearing
  have htilt : r.cosTilt ^ 2 + r.sinTilt ^ 2 = 1 := hr
  obtain ⟨x, y, z⟩ := p
  simp only [toGlobal, pullBack, Matrix.apply, Matrix.transpose, matrix, Point.dot_real, sin_real,
    cos_real, zero_real, Point.mk.injEq]
  generalize Real.sin r.bearing = sa at *
  generalize Real.cos r.bearing = ca at *
  refine ⟨?_, ?_, ?_⟩
  · linear_combination (ca ^ 2 * x + ca * sa * y) * htilt + x * hbearing
  · linear_combination (sa ^ 2 * y + ca * sa * x) * htilt + y * hbearing
  · linear_combination z * htilt

/-- Pulling two points back keeps their scalar product. -/
theorem dot_pullBack (hr : r.IsProper) (p q : Point ℝ) :
    (r.pullBack p).dot (r.pullBack q) = p.dot q := by
  rw [← dot_toGlobal, toGlobal_pullBack hr]

/-- A local direction has its angles in their ranges, with nothing clipped on the way to the
inclination, and its unit vector carried into space is that of the direction. -/
theorem toGlobal_toLocal (bearing downtilt : ℝ) (d : Direction ℝ) :
    let r := ofAngles bearing downtilt
    let height := r.cosTilt * cos d.theta + r.sinTilt * cos (d.phi - r.bearing) * sin d.theta
    (r.toLocal d).theta ∈ Set.Icc 0 Real.pi ∧
      (r.toLocal d).phi ∈ Set.Ioc (-Real.pi) Real.pi ∧
      (clip (-one) one height = height ∧ (r.toLocal d).theta = acos height) ∧
      r.toGlobal (r.toLocal d).vector = d.vector := by
  intro r height
  have hr : r.IsProper := isProper_ofAngles bearing downtilt
  have hcanonical := isCanonical_toLocal hr d
  have hheight : (r.pullBack d.vector).z = height := by
    rw [pullBack_vector]
    rfl
  have hmem : height ∈ Set.Icc (-one) one := by
    rw [one_real, ← hheight]
    exact Point.z_mem_Icc (pullBack_vector_unit hr d)
  refine ⟨hcanonical.theta_mem, hcanonical.phi_mem, ⟨clip_of_mem hmem, ?_⟩, ?_⟩
  · rw [toLocal_eq_direction hr, Point.direction, hheight, acos_real]
  · rw [vector_toLocal hr, toGlobal_pullBack hr]

end Rotation

/-! ## Vectors along inclination and azimuth -/

namespace Point

def scale (c : ℝ) (p : Point ℝ) : Point ℝ := ⟨c * p.x, c * p.y, c * p.z⟩

def add (p q : Point ℝ) : Point ℝ := ⟨p.x + q.x, p.y + q.y, p.z + q.z⟩

def upward : Point ℝ := ⟨0, 0, 1⟩

@[simp] theorem upward_dot (p : Point ℝ) : upward.dot p = p.z := by simp [upward]

theorem dot_comm (p q : Point ℝ) : p.dot q = q.dot p := by
  rw [dot_real, dot_real]
  ring

end Point

namespace Direction

/-- The unit vector along which the inclination grows. -/
noncomputable def alongTheta (d : Direction ℝ) : Point ℝ :=
  ⟨Real.cos d.theta * Real.cos d.phi, Real.cos d.theta * Real.sin d.phi, -Real.sin d.theta⟩

/-- The unit vector along which the azimuth grows. -/
noncomputable def alongPhi (d : Direction ℝ) : Point ℝ := ⟨-Real.sin d.phi, Real.cos d.phi, 0⟩

variable (d : Direction ℝ) (p : Point ℝ)

theorem vector_dot_alongTheta : d.vector.dot d.alongTheta = 0 := by
  simp only [alongTheta, vector, Point.ofAngles_real, Point.dot_real]
  linear_combination Real.sin d.theta * Real.cos d.theta * Real.sin_sq_add_cos_sq d.phi

theorem vector_dot_alongPhi : d.vector.dot d.alongPhi = 0 := by
  simp only [alongPhi, vector, Point.ofAngles_real, Point.dot_real]
  ring

/-- Of a vector that is upright on a direction only the parts along inclination and azimuth are
left. -/
theorem eq_of_dot_vector_eq_zero (h : p.dot d.vector = 0) :
    p = (d.alongTheta.scale (p.dot d.alongTheta)).add (d.alongPhi.scale (p.dot d.alongPhi)) := by
  have hθ := Real.sin_sq_add_cos_sq d.theta
  have hφ := Real.sin_sq_add_cos_sq d.phi
  obtain ⟨x, y, z⟩ := p
  simp only [vector, Point.ofAngles_real, Point.dot_real] at h
  simp only [alongTheta, alongPhi, Point.dot_real, Point.scale, Point.add, Point.mk.injEq]
  generalize Real.sin d.theta = st at *
  generalize Real.cos d.theta = ct at *
  generalize Real.sin d.phi = sp at *
  generalize Real.cos d.phi = cp at *
  refine ⟨?_, ?_, ?_⟩
  · linear_combination st * cp * h - (cp ^ 2 * x + cp * sp * y) * hθ - x * hφ
  · linear_combination st * sp * h - (sp ^ 2 * y + cp * sp * x) * hθ - y * hφ
  · linear_combination ct * h - z * hθ

/-- The squared length of a vector is that of its three parts. -/
theorem sq_parts :
    (p.dot d.vector) ^ 2 + (p.dot d.alongTheta) ^ 2 + (p.dot d.alongPhi) ^ 2 = p.dot p := by
  have hθ := Real.sin_sq_add_cos_sq d.theta
  have hφ := Real.sin_sq_add_cos_sq d.phi
  obtain ⟨x, y, z⟩ := p
  simp only [alongTheta, alongPhi, vector, Point.ofAngles_real, Point.dot_real]
  generalize Real.sin d.theta = st at *
  generalize Real.cos d.theta = ct at *
  generalize Real.sin d.phi = sp at *
  generalize Real.cos d.phi = cp at *
  linear_combination ((cp * x + sp * y) ^ 2 + z ^ 2) * hθ + (x ^ 2 + y ^ 2) * hφ

/-- Up to the factor that is lost at the poles, the vector along the inclination lies between the
direction and the vertical. -/
theorem sin_mul_alongTheta_dot :
    Real.sin d.theta * d.alongTheta.dot p = Real.cos d.theta * d.vector.dot p - p.z := by
  simp only [alongTheta, vector, Point.ofAngles_real, Point.dot_real]
  linear_combination -p.z * Real.sin_sq_add_cos_sq d.theta

end Direction

/-! ## The polarization angle -/

namespace Rotation

variable {r : Rotation ℝ} (hr : r.IsProper) (d : Direction ℝ)

/-- The polarization angle belongs to how far the two vectors point down in the frame of the
panel. -/
theorem polarizationAngle_eq (r : Rotation ℝ) (d : Direction ℝ) :
    r.polarizationAngle d
      = Complex.arg ⟨-(r.pullBack d.alongTheta).z, -(r.pullBack d.alongPhi).z⟩ := by
  simp only [polarizationAngle, pullBack, Matrix.apply, Matrix.transpose, matrix,
    Direction.alongTheta, Direction.alongPhi, Point.dot_real, sin_real, cos_real, atan2_real,
    Real.cos_sub, Real.sin_sub]
  congr 2 <;> ring

include hr

/-- Together they point down as far as the local direction is away from the vertical axis. -/
theorem norm_down_eq_sin :
    ‖(⟨-(r.pullBack d.alongTheta).z, -(r.pullBack d.alongPhi).z⟩ : ℂ)‖
      = Real.sin (r.toLocal d).theta := by
  have hdown (p : Point ℝ) : (r.toGlobal Point.upward).dot p = (r.pullBack p).z := by
    rw [dot_toGlobal, Point.upward_dot]
  have hheight : (r.pullBack d.vector).z = Real.cos (r.toLocal d).theta := by
    rw [← vector_toLocal hr, Direction.vector, Point.ofAngles_real]
  have hunit : (r.toGlobal Point.upward).dot (r.toGlobal Point.upward) = 1 := by
    have htilt : r.cosTilt ^ 2 + r.sinTilt ^ 2 = 1 := hr
    simp only [toGlobal, Matrix.apply, matrix, Point.upward_dot]
    simp only [Point.dot_real, sin_real, cos_real]
    linear_combination r.sinTilt ^ 2 * Real.sin_sq_add_cos_sq r.bearing + htilt
  have hparts := d.sq_parts (r.toGlobal Point.upward)
  rw [hunit, hdown, hdown, hdown, hheight] at hparts
  have hsin : 0 ≤ Real.sin (r.toLocal d).theta :=
    Real.sin_nonneg_of_mem_Icc (isCanonical_toLocal hr d).theta_mem
  rw [Complex.norm_def, Complex.normSq_mk, ← Real.sqrt_sq hsin]
  congr 1
  linear_combination hparts - Real.sin_sq_add_cos_sq (r.toLocal d).theta

theorem sin_mul_cos_polarizationAngle :
    Real.sin (r.toLocal d).theta * Real.cos (r.polarizationAngle d)
      = -(r.pullBack d.alongTheta).z := by
  rw [← norm_down_eq_sin hr, polarizationAngle_eq, Complex.norm_mul_cos_arg]

theorem sin_mul_sin_polarizationAngle :
    Real.sin (r.toLocal d).theta * Real.sin (r.polarizationAngle d)
      = -(r.pullBack d.alongPhi).z := by
  rw [← norm_down_eq_sin hr, polarizationAngle_eq, Complex.norm_mul_sin_arg]

/-- A part of the polarization vector of the panel, after it was carried into space. -/
theorem sin_mul_carried_dot (p : Point ℝ) :
    Real.sin (r.toLocal d).theta * (r.toGlobal (r.toLocal d).alongTheta).dot p
      = Real.cos (r.toLocal d).theta * d.vector.dot p - (r.pullBack p).z := by
  rw [dot_toGlobal, Direction.sin_mul_alongTheta_dot, vector_toLocal hr, dot_pullBack hr]

/-- Away from its poles, the polarization vector of the panel is carried to the one that the
polarization angle spells between inclination and azimuth. -/
theorem toGlobal_alongTheta (h : Real.sin (r.toLocal d).theta ≠ 0) :
    r.toGlobal (r.toLocal d).alongTheta
      = (d.alongTheta.scale (Real.cos (r.polarizationAngle d))).add
        (d.alongPhi.scale (Real.sin (r.polarizationAngle d))) := by
  have hupright : (r.toGlobal (r.toLocal d).alongTheta).dot d.vector = 0 := by
    rw [dot_toGlobal, ← vector_toLocal hr, Point.dot_comm, Direction.vector_dot_alongTheta]
  have hθ : (r.toGlobal (r.toLocal d).alongTheta).dot d.alongTheta
      = Real.cos (r.polarizationAngle d) := by
    apply mul_left_cancel₀ h
    rw [sin_mul_carried_dot hr, sin_mul_cos_polarizationAngle hr, d.vector_dot_alongTheta]
    ring
  have hφ : (r.toGlobal (r.toLocal d).alongTheta).dot d.alongPhi
      = Real.sin (r.polarizationAngle d) := by
    apply mul_left_cancel₀ h
    rw [sin_mul_carried_dot hr, sin_mul_sin_polarizationAngle hr, d.vector_dot_alongPhi]
    ring
  rw [d.eq_of_dot_vector_eq_zero _ hupright, hθ, hφ]

end Rotation

/-! ## Fields -/

noncomputable def Field.vector (f : Field ℝ) (d : Direction ℝ) : Point ℝ :=
  (d.alongTheta.scale f.theta).add (d.alongPhi.scale f.phi)

namespace PhasedArray

variable (a : PhasedArray ℝ)

/-- A field has the power of the element in the local direction. Away from the poles of the panel it
is the polarization vector there, carried into space with the amplitude of the element. -/
structure IsCarried (d : Direction ℝ) (f : Field ℝ) : Prop where
  power : f.phi ^ 2 + f.theta ^ 2 = a.amplitude d ^ 2
  vector : Real.sin (a.rotation.toLocal d).theta ≠ 0 →
    f.vector d = (a.rotation.toGlobal (a.rotation.toLocal d).alongTheta).scale (a.amplitude d)

theorem field_isCarried (d : Direction ℝ) : a.IsCarried d (a.field d) where
  power := by
    rw [← power_field, Field.power, square_real, square_real]
  vector h := by
    have hfield : a.field d = ⟨Real.sin (a.rotation.polarizationAngle d) * a.amplitude d,
        Real.cos (a.rotation.polarizationAngle d) * a.amplitude d⟩ := rfl
    rw [Rotation.toGlobal_alongTheta a.isProper_rotation d h, hfield, Field.vector]
    simp only [Point.scale, Point.add, Point.mk.injEq]
    refine ⟨?_, ?_, ?_⟩ <;> ring

/-- Fields are returned over tensors of angles that agree and are admitted, and over no others. -/
theorem exists_fields_iff {θ φ : Tensor ℝ} :
    (∃ fields, a.fields θ φ = .ok fields) ↔
      Tensor.Agree θ.axes φ.axes ∧ a.radiator.Admits (max θ.rank φ.rank) := by
  constructor
  · rintro ⟨fields, h⟩
    exact a.agree_of_fields h
  · rintro ⟨hagree, hadmits⟩
    obtain ⟨ds, hds⟩ := exists_overDirections hagree
    rw [← rank_of_overDirections hds] at hadmits
    exact ⟨_, a.fields_eq_ok hds hadmits⟩

/-- The fields that are returned over tensors of angles are the ones in their directions. -/
theorem exists_of_fields {θ φ : Tensor ℝ} {fields : Tensor (Field ℝ)}
    (h : a.fields θ φ = .ok fields) :
    ∃ ds, overDirections id θ φ = .ok ds ∧ fields = ds.map a.field := by
  obtain ⟨hagree, hadmits⟩ := a.agree_of_fields h
  obtain ⟨ds, hds⟩ := exists_overDirections hagree
  rw [← rank_of_overDirections hds] at hadmits
  rw [a.fields_eq_ok hds hadmits, Except.ok.injEq] at h
  exact ⟨ds, hds, h.symm⟩

/-- Towards one direction the field is that of the element there. -/
theorem fieldTowards_of_single {aim : Aim ℝ} {d : Direction ℝ} (h : aim.single = .ok d) :
    a.fieldTowards aim = .ok (a.field d) := by
  rw [fieldTowards, Aim.pair_of_single h, ok_bind]
  dsimp only
  rw [Tensor.onlyRow_scalar, ok_bind, Tensor.onlyRow_scalar, ok_bind]
  have hfields := a.fields_angles [d]
  rw [List.map_singleton, List.map_singleton] at hfields
  rw [hfields, ok_bind, Tensor.map_ofList]
  rfl

/-- A field is only returned towards one direction. -/
theorem exists_single_of_fieldTowards {aim : Aim ℝ} {f : Field ℝ}
    (h : a.fieldTowards aim = .ok f) : ∃ d, aim.single = .ok d := by
  obtain ⟨⟨θ, φ⟩, hpair, h⟩ := exists_of_bind_eq_ok h
  obtain ⟨θ', hθ, h⟩ := exists_of_bind_eq_ok h
  obtain ⟨φ', hφ, h⟩ := exists_of_bind_eq_ok h
  obtain ⟨fields, hfields, h⟩ := exists_of_bind_eq_ok h
  obtain ⟨ds, hds, rfl⟩ := a.exists_of_fields hfields
  split at h
  · next n _ haxes _ =>
    -- the table has one axis, and its row none
    have hrank : ds.rank = 1 := congrArg List.length haxes
    rw [rank_of_overDirections hds, Tensor.rank_of_onlyRow hθ, Tensor.rank_of_onlyRow hφ] at hrank
    have hθnil : θ.axes = [] := List.length_eq_zero_iff.mp (show θ.rank = 0 by omega)
    have hφnil : φ.axes = [] := List.length_eq_zero_iff.mp (show φ.rank = 0 by omega)
    obtain ⟨x, hx⟩ := Tensor.exists_single? hθnil
    obtain ⟨y, hy⟩ := Tensor.exists_single? hφnil
    exact ⟨⟨x, y⟩, by rw [Aim.single, hpair, ok_bind]; simp only [hx, hy]; rfl⟩
  · cases h

/-- Towards one direction and over tensors of angles, an array returns fields where it can, and they
are the carried ones. -/
theorem fields_isCarried :
    (∀ aim d, aim.single = .ok d → ∃ f, a.fieldTowards aim = .ok f ∧ a.IsCarried d f) ∧
      (∀ aim f, a.fieldTowards aim = .ok f → ∃ d, aim.single = .ok d) ∧
      ∀ θ φ, ((∃ fields, a.fields θ φ = .ok fields) ↔
          Tensor.Agree θ.axes φ.axes ∧ a.radiator.Admits (max θ.rank φ.rank)) ∧
        ∀ fields, a.fields θ φ = .ok fields →
          ∃ ds, overDirections id θ φ = .ok ds ∧ fields.axes = ds.axes ∧
            List.Forall₂ a.IsCarried ds.toList fields.toList := by
  refine ⟨fun aim d h => ⟨_, a.fieldTowards_of_single h, a.field_isCarried d⟩,
    fun aim f => a.exists_single_of_fieldTowards, fun θ φ => ⟨a.exists_fields_iff, ?_⟩⟩
  intro fields h
  obtain ⟨ds, hds, rfl⟩ := a.exists_of_fields h
  refine ⟨ds, hds, rfl, ?_⟩
  rw [Tensor.toList_map, List.forall₂_map_right_iff]
  exact List.forall₂_same.mpr fun d _ => a.field_isCarried d

end PhasedArray

end AntennaArray
