import AntennaArray.Proofs.ElementCeiling
import AntennaArray.Proofs.Gain
import AntennaArray.Proofs.Sweep

/-!
# Composite gains in doubles

A sweep takes the power of an element as doubles are: a square may be infinite. The composite gain
of one direction squares the components of the field one by one, and fails where a finite one has an
infinite square (`composite_outcome`). No element of at most 3082 decibels has such a field,
whatever the direction.
-/

namespace AntennaArray

open Binary64 (squareLimit)

/-- A finite double whose square is infinite. -/
structure IsUnsquarable (x : Float) : Prop where
  isFinite : x.isFinite = true
  large : x ≤ -squareLimit ∨ squareLimit ≤ x

theorem isUnsquarable_iff {x : Float} :
    IsUnsquarable x ↔ x.isFinite = true ∧ (Scalar.square x).isFinite = false := by
  have hlimit : squareLimit.isNaN = false := by decide
  have hlimit' : (-squareLimit).isNaN = false := by decide
  constructor
  · rintro ⟨hx, hlarge⟩
    refine ⟨hx, ?_⟩
    rw [← Bool.not_eq_true, Scalar.square, Binary64.isFinite_mul_self_iff hx]
    rintro ⟨hlow, hhigh⟩
    rcases hlarge with hle | hle
    · exact Binary64.lt_irrefl _ (Trans.trans hlow hle)
    · exact Binary64.lt_irrefl _ (Trans.trans hhigh hle)
  · rintro ⟨hx, hsquare⟩
    obtain ⟨a, ha, -⟩ := Binary64.isFinite_iff.mp hx
    have hnumber := Binary64.isNaN_eq_false_iff.mpr ⟨a, ha⟩
    rw [← Bool.not_eq_true, Scalar.square, Binary64.isFinite_mul_self_iff hx] at hsquare
    refine ⟨hx, ?_⟩
    by_cases hlow : -squareLimit < x
    · exact .inr (Binary64.le_of_not_lt hnumber hlimit fun hhigh => hsquare ⟨hlow, hhigh⟩)
    · exact .inl (Binary64.le_of_not_lt hlimit' hnumber hlow)

/-- A component of the field is finite, but its square is not. -/
def Field.Overflows (f : Field Float) : Prop := IsUnsquarable f.phi ∨ IsUnsquarable f.theta

namespace Gain

theorem square?_of_isUnsquarable {x : Float} (h : IsUnsquarable x) :
    square? x = .error .squareTooLarge := by
  obtain ⟨hx, hsquare⟩ := isUnsquarable_iff.mp h
  have hfails : (Scalar.isFinite x && !Scalar.isFinite (Scalar.square x)) = true :=
    Bool.and_eq_true_iff.mpr ⟨hx, by rw [Bool.not_eq_true']; exact hsquare⟩
  rw [square?]
  exact if_pos hfails

theorem square?_of_not_isUnsquarable {x : Float} (h : ¬IsUnsquarable x) :
    square? x = .ok (Scalar.square x) := by
  have hpasses : ¬(Scalar.isFinite x && !Scalar.isFinite (Scalar.square x)) = true := by
    intro hfails
    obtain ⟨hx, hsquare⟩ := Bool.and_eq_true_iff.mp hfails
    exact h (isUnsquarable_iff.mpr ⟨hx, Bool.not_eq_true' _ ▸ hsquare⟩)
  rw [square?]
  exact if_neg hpasses

variable {a : PhasedArray Float} {d : Direction Float} {ws : List (Phasor Float)}

/-- The gain of one element fails where its field overflows, and only there. -/
theorem element_of_overflows {f : Field Float} (h : f.Overflows) :
    (element f : Attempt Float) = .error .squareTooLarge := by
  rw [element]
  by_cases hphi : IsUnsquarable f.phi
  · rw [square?_of_isUnsquarable hphi, error_bind]
  · rw [square?_of_not_isUnsquarable hphi, ok_bind,
      square?_of_isUnsquarable (h.resolve_left hphi), error_bind]

theorem element_of_not_overflows {f : Field Float} (h : ¬f.Overflows) :
    (element f : Attempt Float) = .ok (LevelScale.ofPower f.power) := by
  obtain ⟨hphi, htheta⟩ := not_or.mp h
  rw [element, square?_of_not_isUnsquarable hphi, ok_bind, square?_of_not_isUnsquarable htheta,
    ok_bind]
  rfl

/-- The array factor of a composite gain is taken without fail. -/
theorem composite_eq_element (h : ws.length = a.size) :
    (composite a d (some ws) : Attempt Float) =
      element (a.field d) >>= fun one => .ok (LevelScale.ofPower (a.factor ws d) + one) := by
  have hweights : a.weights ws = .ok ws := PhasedArray.weights_eq_ok.mpr ⟨h, rfl⟩
  have hlength : (a.steering d).length = ws.length := by simp [h]
  simp only [composite, hweights, ok_bind, beamforming_eq_ok hlength]
  rfl

/-- The level of the array and that of the element, as doubles are. -/
def floatLevel (a : PhasedArray Float) (ws : List (Phasor Float)) (d : Direction Float) : Float :=
  LevelScale.ofPower (a.factor ws d) + LevelScale.ofPower (a.field d).power

theorem composite_of_overflows (h : ws.length = a.size) (hfield : (a.field d).Overflows) :
    (composite a d (some ws) : Attempt Float) = .error .squareTooLarge := by
  rw [composite_eq_element h, element_of_overflows hfield, error_bind]

theorem composite_of_not_overflows (h : ws.length = a.size) (hfield : ¬(a.field d).Overflows) :
    composite a d (some ws) = .ok (floatLevel a ws d) := by
  rw [composite_eq_element h, element_of_not_overflows hfield, ok_bind]
  rfl

/-- What is bounded by the greatest double with a finite square has one. -/
theorem not_isUnsquarable {x : Float} (h : Binary64.IsBounded squarableUnits x) :
    ¬IsUnsquarable x := by
  intro hx
  obtain ⟨hfinite, hsquare⟩ := isUnsquarable_iff.mp hx
  obtain ⟨a, ha, -⟩ := Binary64.isFinite_iff.mp hfinite
  have hle := h a ha
  have hsmall := (Binary64.lt_squareLimit_iff ha).mpr (hle.trans_lt squarableUnits_lt)
  have htrue : (x * x).isFinite = true := (Binary64.isFinite_mul_self_iff hfinite).mpr hsmall
  rw [Scalar.square, htrue] at hsquare
  cases hsquare

section

variable {k : ElementKind} {args : Arguments} {e : Element Number}
  (he : Element.construct k args = .ok e) (p : Placement Float)

include he

/-- A sweep over one finite direction has one cell, whatever the field. The composite gain in that
direction is the sum of the levels of the array and of the element, unless a component of the field
is finite and not below `2 ^ 512` in magnitude; then its square overflows. That never happens for an
element of at most 3082 decibels. -/
theorem composite_outcome (hws : ws.length = p.size) (htheta : d.theta.isFinite = true)
    (hphi : d.phi.isFinite = true) :
    let a := PhasedArray.of p e.toDoubles
    (∃ map : Tensor Float, a.sweep ws [d.theta] [d.phi] = .ok map ∧ map.shape = [1, 1] ∧
        map.cell? 0 0 = some (a.sweepGain a.points ws d.normalized)) ∧
      (composite a d (some ws) = .ok (floatLevel a ws d) ↔ ¬(a.field d).Overflows) ∧
      ((a.field d).Overflows → (composite a d (some ws) : Attempt Float) = .error .squareTooLarge) ∧
      (e.toDoubles.greatestGain ≤ 3082 → ¬(a.field d).Overflows) := by
  intro a
  have hsize : ws.length = a.size := hws
  have hfinite : ([d.theta].all Scalar.isFinite && [d.phi].all Scalar.isFinite) = true := by
    have htheta' : Scalar.isFinite d.theta = true := htheta
    have hphi' : Scalar.isFinite d.phi = true := hphi
    simp only [List.all_cons, List.all_nil, Bool.and_true, htheta', hphi']
  refine ⟨?_, ⟨?_, composite_of_not_overflows hsize⟩, composite_of_overflows hsize, ?_⟩
  · exact ⟨_, PhasedArray.sweep_of_isFinite hsize hfinite, shape_gridMap _ _ _,
      cell?_gridMap _ [d.theta] [d.phi] 0 0⟩
  · intro hreturns hfield
    rw [composite_of_overflows hsize hfield] at hreturns
    cases hreturns
  · rintro hgain (hoverflow | hoverflow)
    · exact not_isUnsquarable
        (PhasedArray.isBounded_field (Element.isValid_construct he) hgain p d).1 hoverflow
    · exact not_isUnsquarable
        (PhasedArray.isBounded_field (Element.isValid_construct he) hgain p d).2 hoverflow

end

/-- The arguments of a pattern with a greatest gain. -/
def gainArguments (gain : Int) : Arguments :=
  [(Text.ofString "max_directional_gain", .number (.integer gain))]

/-- The parabolic pattern with a greatest gain, and all else as it is by default. -/
def parabolicOfGain (gain : Int) : Element Number :=
  .parabolic ⟨.double 60, .double 60, .double 30, .double 30, .integer gain, .double 0⟩

/-- A single parabolic pattern. -/
def loneArray (gain : Int) : PhasedArray Float :=
  .of (.points [⟨0, 0, 0⟩]) (parabolicOfGain gain).toDoubles

/-- The direction in which the pattern has its greatest gain. -/
def ahead : Direction Float := ⟨Binary64.rightAngle, 0⟩

/-- Along its axis an element of 3082 decibels has its gain. -/
theorem composite_outcome_ahead :
    Element.construct .parabolic (gainArguments 3082) = .ok (parabolicOfGain 3082) ∧
      ahead.theta.isFinite = true ∧ ahead.phi.isFinite = true ∧
      composite (loneArray 3082) ahead (some [⟨1, 0⟩])
        = .ok (floatLevel (loneArray 3082) [⟨1, 0⟩] ahead) := by
  have he : Element.construct .parabolic (gainArguments 3082) = .ok (parabolicOfGain 3082) := rfl
  have htheta : ahead.theta.isFinite = true := by decide
  have hphi : ahead.phi.isFinite = true := by decide
  have hws : ([⟨1, 0⟩] : List (Phasor Float)).length
      = (.points [⟨0, 0, 0⟩] : Placement Float).size := rfl
  obtain ⟨-, hlevel, -, hquiet⟩ := composite_outcome he _ hws htheta hphi
  exact ⟨he, htheta, hphi, hlevel.mpr (hquiet (by decide))⟩

/-- Along its axis an element of 4000 decibels has none, though the array factor is finite. -/
theorem composite_eq_error_ahead :
    Element.construct .parabolic (gainArguments 4000) = .ok (parabolicOfGain 4000) ∧
      ahead.theta.isFinite = true ∧ ahead.phi.isFinite = true ∧
      ((loneArray 4000).factor [⟨1, 0⟩] ahead).isFinite = true ∧
      (composite (loneArray 4000) ahead (some [⟨1, 0⟩]) : Attempt Float)
        = .error .squareTooLarge := by
  have hfield : ((loneArray 4000).field ahead).Overflows :=
    .inr ⟨by decide +kernel, .inr (by decide +kernel)⟩
  exact ⟨rfl, by decide, by decide, by decide +kernel, composite_of_overflows rfl hfield⟩

end Gain

end AntennaArray
