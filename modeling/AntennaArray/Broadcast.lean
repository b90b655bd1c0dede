import AntennaArray.Angle
import AntennaArray.Fault
import AntennaArray.Tensor

/-!
# Operations on tensors

An operation on two tensors repeats their axes until they agree, and is refused where they cannot.
A formula of two angles becomes a formula of two tensors in this way: a part of it that depends on
one angle alone keeps the axes of that one, until it meets a part that depends on the other.
-/

namespace AntennaArray.Tensor

variable {α β γ : Type}

/-- Two tensors combined entry by entry; their axes have to agree. -/
def combine (f : α → β → γ) (a : Tensor α) (b : Tensor β) : Attempt (Tensor γ) :=
  match zipWith? f a b with
  | some t => .ok t
  | none => .error .incompatible

/-- Three coordinates for each entry, which make one more axis. Here the axes have to be the same:
none of them is repeated. -/
def stack (x y z : Tensor α) : Attempt (Tensor (Point α)) :=
  if h : y.axes = x.axes ∧ z.axes = x.axes then
    if x.rank < axisLimit then
      let points := x.entries.zipWith (fun x (y, z) => ⟨x, y, z⟩) (y.entries.zip z.entries)
      .ok ⟨x.axes, points, by simp [points, x.size_eq, y.size_eq, z.size_eq, h]⟩
    else .error (.noSuchTensor axisLimit (x.rank + 1))
  else .error .incompatible

/-- The entries along other axes, which have to take as many. -/
def reshape (shape : List Nat) (t : Tensor α) : Attempt (Tensor α) :=
  match ofShape? shape t.toList with
  | some s => .ok s
  | none => .error .incompatible

/-- A tensor as the only row of a table, which has one axis more. -/
def onlyRow (t : Tensor α) : Attempt (Tensor α) :=
  if t.rank < axisLimit then t.reshape (1 :: t.shape) else .error .incompatible

end AntennaArray.Tensor
