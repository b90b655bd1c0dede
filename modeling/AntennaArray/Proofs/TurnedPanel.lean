import AntennaArray.Proofs.Gain

/-!
# Turning a panel and turning the direction

A panel that is turned by its bearing and its downtilt sees a direction as the same panel, not
turned, sees the local direction. The phases of a plane wave agree because the matrix of the
rotation and the local direction are transposes of one another; the power of an element agrees
because the polarization angle only splits its amplitude into two components.
-/

namespace AntennaArray

open Scalar

namespace Panel

/-- The panel before it is turned. -/
noncomputable def straight (p : Panel ℝ) : Panel ℝ := { p with bearing := 0, downtilt := 0 }

@[simp] theorem size_straight (p : Panel ℝ) : p.straight.size = p.size := rfl

@[simp] theorem localPoint_straight (p : Panel ℝ) (i : ℕ) :
    p.straight.localPoint i = p.localPoint i := rfl

@[simp] theorem rotation_straight (p : Panel ℝ) : p.straight.rotation = Rotation.level := rfl

theorem isProper_rotation (p : Panel ℝ) : p.rotation.IsProper :=
  Rotation.isProper_ofAngles p.bearing p.downtilt

@[simp] theorem globalPoint_straight (p : Panel ℝ) (i : ℕ) :
    p.straight.globalPoint i = p.localPoint i := by
  rw [globalPoint, rotation_straight, Rotation.toGlobal_level, localPoint_straight]

end Panel

namespace PhasedArray

/-- The way of a plane wave to an element is the one in the frame of the panel. -/
theorem dot_globalPoint (p : Panel ℝ) (d : Direction ℝ) (i : ℕ) :
    (p.globalPoint i).dot d.vector = (p.localPoint i).dot (p.rotation.toLocal d).vector := by
  rw [Panel.globalPoint, Rotation.dot_toGlobal, Rotation.vector_toLocal p.isProper_rotation]

/-- A turned panel has the phases of the straight one in the local direction. -/
theorem steering_straight (p : Panel ℝ) (e : Element ℝ) (d : Direction ℝ) :
    (of (.panel p.straight) e).steering (p.rotation.toLocal d) = (of (.panel p) e).steering d := by
  simp only [steering, wave, front, points, of, Placement.toPoints, Panel.points_eq, List.map_map,
    Panel.size_straight]
  refine List.map_congr_left fun i _ => ?_
  simp only [Function.comp_apply, Panel.globalPoint_straight, dot_globalPoint]

/-- A turned panel has the element amplitude of the straight one in the local direction. -/
theorem amplitude_straight (p : Panel ℝ) (e : Element ℝ) (d : Direction ℝ) :
    (of (.panel p.straight) e).amplitude (p.rotation.toLocal d)
      = (of (.panel p) e).amplitude d := by
  have hlocal : Rotation.level.toLocal (p.rotation.toLocal d) = p.rotation.toLocal d :=
    Rotation.toLocal_level (Rotation.isCanonical_toLocal p.isProper_rotation d)
  simp only [amplitude, rotation, of, Placement.rotation, Panel.rotation_straight, hlocal]

end PhasedArray

namespace Gain

/-- The gain of a turned panel in a direction, with any weights for its elements, is the gain of the
straight panel in the local direction, and so is each entry of the steering vector. -/
theorem composite_straight (p : Panel ℝ) (e : Element ℝ) (d : Direction ℝ)
    (ws : List (Phasor ℝ)) (h : ws.length = p.size) :
    (∃ g : WithBot ℝ,
      composite (.of (.panel p) e) d (some ws) = .ok g ∧
        composite (.of (.panel p.straight) e) (p.rotation.toLocal d) (some ws) = .ok g) ∧
      (PhasedArray.of (.panel p) e).steering d
        = (PhasedArray.of (.panel p.straight) e).steering (p.rotation.toLocal d) := by
  refine ⟨⟨_, composite_eq_ok (a := .of (.panel p) e) h, ?_⟩,
    (PhasedArray.steering_straight p e d).symm⟩
  rw [composite_eq_ok (a := .of (.panel p.straight) e) h, PhasedArray.steering_straight,
    PhasedArray.amplitude_straight]

/-- Two elements turned to the side and down, of which only the first one is weighted. -/
theorem composite_straight_pair :
    ∃ p : Panel ℝ, p.rows = 1 ∧ p.columns = 2 ∧ p.bearing = 2 ∧
      p.downtilt = 1 ∧ ∀ (e : Element ℝ) (d : Direction ℝ), ∃ g : WithBot ℝ,
        composite (.of (.panel p) e) d (some [⟨1, 0⟩, ⟨0, 0⟩]) = .ok g ∧
          composite (.of (.panel p.straight) e) (p.rotation.toLocal d) (some [⟨1, 0⟩, ⟨0, 0⟩])
            = .ok g := by
  let p : Panel ℝ :=
    ⟨1, 2, 1, 1, 2, 1, Nat.one_pos, Nat.two_pos⟩
  refine ⟨p, rfl, rfl, rfl, rfl, fun e d => ?_⟩
  exact (composite_straight p e d [⟨1, 0⟩, ⟨0, 0⟩] rfl).1

end Gain

end AntennaArray
