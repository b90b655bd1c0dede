import AntennaArray.Broadcast

/-!
# Aims

What a caller hands over as a direction: a direction, a sequence of tensors, of which two are
inclinations and azimuths, or something else, which is refused.
-/

namespace AntennaArray

/-- A function of a direction at all pairs of inclinations and azimuths. -/
def overDirections {α β : Type} (f : Direction α → β) (θ φ : Tensor α) : Attempt (Tensor β) :=
  Tensor.combine (fun t p => f ⟨t, p⟩) θ φ

/-- The unit vectors in all directions, whose coordinates make one more axis. -/
def overVectors {α : Type} [Scalar α] (θ φ : Tensor α) : Attempt (Tensor (Point α)) := do
  let sines := θ.map Scalar.sin
  let x ← Tensor.combine (· * ·) sines (φ.map Scalar.cos)
  let y ← Tensor.combine (· * ·) sines (φ.map Scalar.sin)
  -- the height does not depend on the azimuth, but has an entry for each of them
  let z ← Tensor.combine (· * ·) (θ.map Scalar.cos) (φ.map fun _ => Scalar.one)
  Tensor.stack x y z

/-- What is handed over as a direction. -/
inductive Aim (α : Type) where
  | direction (d : Direction α)
  | parts (ts : List (Tensor α))
  | other

namespace Aim

variable {α β : Type}

def pair : Aim α → Attempt (Tensor α × Tensor α)
  | .direction d => .ok (.scalar d.theta, .scalar d.phi)
  | .parts [θ, φ] => .ok (θ, φ)
  | _ => reject .direction

def single (a : Aim α) : Attempt (Direction α) := do
  let (θ, φ) ← a.pair
  match θ.single?, φ.single? with
  | some θ, some φ => return ⟨θ, φ⟩
  | _, _ => .error .notSingle

@[simp] theorem single_direction (d : Direction α) : (Aim.direction d).single = .ok d := rfl

end Aim

end AntennaArray
