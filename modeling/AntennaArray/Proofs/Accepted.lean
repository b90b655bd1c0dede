import AntennaArray.Catalog
import AntennaArray.Proofs.Binary64.Units
import AntennaArray.Proofs.ElementMaking

/-!
# What is accepted

A number is accepted where it has a nearest double that is as required (`Number.Fits`), and an
element is constructed where its parameters fit (`Element.IsValid`). The requirements leave out what
is not a number, so panels and elements that are accepted equal themselves.
-/

namespace AntennaArray

/-! ## Numbers -/

/-- The number has a nearest double, and the double is as required. -/
def Number.Fits (required : List Requirement) (n : Number) : Prop :=
  ∃ x, n.toDouble? = some x ∧ ∀ r ∈ required, r.holds x = true

/-- The beamwidth has no limit, or is one below a full turn. -/
def Beamwidth.Fits : Beamwidth Number → Prop
  | .unlimited => True
  | .degrees n => n.Fits [.beamwidth (some 360) false]

namespace Beamwidth

/-- A number that fits stands for a beamwidth that does. -/
theorem fits_ofNumber {n : Number} (h : n.Fits [.beamwidth (some 360) false]) :
    (ofNumber n).Fits := by
  cases n with
  | integer n => exact h
  | double x =>
    rw [ofNumber]
    split
    · trivial
    · exact h

/-- Infinity stands for no limit. -/
theorem fits_ofNumber_of_isInf {x : Float} (h : x.isInf = true) : (ofNumber (.double x)).Fits := by
  rw [ofNumber, if_pos h]
  trivial

end Beamwidth

/-- Whether a requirement leaves out what is not a number. -/
def Requirement.isNumeric : Requirement → Bool
  | .real => false
  | .positiveInteger => false
  | .nonNegative => false
  | _ => true

/-- What is not a number fails such a requirement. -/
theorem Requirement.beq_self_of_holds {r : Requirement} {x : Float} (hr : r.isNumeric = true)
    (h : r.holds x = true) : (x == x) = true := by
  have hfinite (h : x.isFinite = true) : (x == x) = true := by
    obtain ⟨a, ha, -⟩ := Binary64.isFinite_iff.mp h
    exact Binary64.beq_self_iff.mpr ⟨a, ha⟩
  have hgreater {low : Float} (h : low < x) : (x == x) = true := by
    obtain ⟨-, a, -, ha, -⟩ := Binary64.lt_iff.mp h
    exact Binary64.beq_self_iff.mpr ⟨a, ha⟩
  have hatLeast {low : Float} (h : low ≤ x) : (x == x) = true := by
    obtain ⟨-, a, -, ha, -⟩ := Binary64.le_iff.mp h
    exact Binary64.beq_self_iff.mpr ⟨a, ha⟩
  cases r with
  | real | positiveInteger | nonNegative => cases hr
  | finite => exact hfinite h
  | positive =>
    simp only [holds, Bool.and_eq_true] at h
    exact hfinite h.1
  | bearing | downtilt =>
    simp only [holds, Bool.and_eq_true] at h
    exact hfinite h.1.1
  | orientation =>
    simp only [holds, Bool.and_eq_true] at h
    exact hatLeast (of_decide_eq_true h.1)
  | beamwidth bound closed =>
    cases bound with
    | none =>
      simp only [holds, Bool.and_eq_true] at h
      exact hfinite h.1
    | some bound =>
      simp only [holds, Bool.and_eq_true] at h
      exact hgreater (of_decide_eq_true h.1)

namespace Number

variable {required : List Requirement} {n : Number}

/-- The double of a number that fits is as required. -/
theorem Fits.holds (h : n.Fits required) : ∀ r ∈ required, r.holds n.toDouble = true := by
  obtain ⟨x, hx, hholds⟩ := h
  rwa [toDouble_of_toDouble? hx]

/-- A number that is not left out equals itself, and so does its double. -/
theorem Fits.beq_self {r : Requirement} (h : n.Fits required) (hr : r ∈ required)
    (hnumeric : r.isNumeric = true) : (n.toDouble == n.toDouble) = true :=
  r.beq_self_of_holds hnumeric (h.holds r hr)

theorem Fits.equals_self {r : Requirement} (h : n.Fits required) (hr : r ∈ required)
    (hnumeric : r.isNumeric = true) : n.equals n = true := by
  cases n with
  | integer n => exact (equals_integer n n).mpr rfl
  | double x => exact h.beq_self hr hnumeric

end Number

namespace Arguments

variable {args : Arguments} {name : Text} {required : List Requirement} {n default : Number}

/-- What is required of a number decides alone whether it is accepted. -/
theorem requireNumber_eq_ok_iff {v : Value} :
    requireNumber name v required = .ok n ↔ v = .number n ∧ n.Fits required := by
  have hnumber (n : Number) : requireNumber name (.number n) required = .ok n ↔
      n.Fits required := by
    rw [requireNumber, Number.Fits]
    cases n.toDouble? with
    | none => simp
    | some x =>
      simp only [Option.some.injEq, exists_eq_left']
      cases hfind : required.find? fun r => !r.holds x with
      | none => simpa using hfind
      | some r =>
        have hr := List.mem_of_find?_eq_some hfind
        have hfails : r.holds x = false := by simpa using List.find?_some hfind
        refine iff_of_false (by simp [refuse]) fun hholds => ?_
        rw [hholds r hr] at hfails
        cases hfails
  constructor
  · intro h
    obtain rfl := requireNumber_eq_ok h
    exact ⟨rfl, (hnumber n).mp h⟩
  · rintro ⟨rfl, hfits⟩
    exact (hnumber n).mpr hfits

/-- A number that is read fits, if the default does. -/
theorem fits_of_number (h : args.number name default required = .ok n)
    (hdefault : default.Fits required) : n.Fits required := by
  rw [number] at h
  split at h
  · cases h
    exact hdefault
  · exact (requireNumber_eq_ok_iff.mp h).2

/-- An argument that is given is required, whatever the default is. -/
theorem number_eq_requireNumber {v : Value} (hlookup : args.lookup name = some v) :
    args.number name default required = requireNumber name v required := by
  simp only [number, hlookup]

/-- A number that fits is read as it is given. -/
theorem number_of_lookup (hlookup : args.lookup name = some (.number n)) (h : n.Fits required) :
    args.number name default required = .ok n :=
  (number_eq_requireNumber hlookup).trans (requireNumber_eq_ok_iff.mpr ⟨rfl, h⟩)

/-- A beamwidth that is read fits, if the default does. -/
theorem fits_of_beamwidth {w : Beamwidth Number} (h : args.beamwidth name default = .ok w)
    (hdefault : (Beamwidth.ofNumber default).Fits) : w.Fits := by
  have hnumber (h : (args.number name default [.beamwidth (some 360) false]).map
      Beamwidth.ofNumber = .ok w) : w.Fits := by
    rw [number] at h
    split at h
    · cases h
      exact hdefault
    · next v hv =>
      cases hread : requireNumber name v [.beamwidth (some 360) false] with
      | error f =>
        rw [hread] at h
        cases h
      | ok n =>
        rw [hread] at h
        cases h
        exact Beamwidth.fits_ofNumber (requireNumber_eq_ok_iff.mp hread).2
  rw [beamwidth] at h
  split at h
  · split at h
    · cases h
      trivial
    · exact hnumber h
  · exact hnumber h

/-- A beamwidth that fits is read as it is given; infinity stands for no limit. -/
theorem beamwidth_of_lookup {w : Beamwidth Number}
    (hlookup : args.lookup name = some (.number w.toNumber)) (h : w.Fits) :
    args.beamwidth name default = .ok w := by
  cases w with
  | unlimited =>
    have hinfinite : (Binary64.infinite false == Binary64.infinite false) = true := by
      decide
    simp only [Beamwidth.toNumber] at hlookup
    simp only [beamwidth, hlookup, hinfinite, if_true]
  | degrees n =>
    have hread : (args.number name default [.beamwidth (some 360) false]).map Beamwidth.ofNumber
        = .ok (Beamwidth.ofNumber n) := by
      rw [number_of_lookup hlookup h]
      rfl
    simp only [Beamwidth.toNumber] at hlookup
    cases n with
    | integer n =>
      simp only [beamwidth, hlookup, hread]
      rfl
    | double x =>
      have hholds := h.holds _ (List.mem_singleton.mpr rfl)
      simp only [Requirement.holds, Bool.and_eq_true] at hholds
      -- a limit below a full turn is finite, so it does not stand for having none
      have hfinite : x.isFinite = true :=
        Binary64.isFinite_of_lt_of_lt (of_decide_eq_true hholds.1) (of_decide_eq_true hholds.2)
      have hlimited := Binary64.beq_eq_false hfinite
        (y := Binary64.infinite false) (by decide)
      simp only [beamwidth, hlookup, hread, hlimited, Beamwidth.ofNumber,
        Binary64.isInf_eq_false hfinite, Bool.false_eq_true, if_false]

end Arguments

/-! ## Elements -/

/-- A beamwidth that fits equals itself. -/
theorem Beamwidth.Fits.equals_self {w : Beamwidth Number} (h : w.Fits) :
    w.toNumber.equals w.toNumber = true := by
  cases w with
  | unlimited => decide
  | degrees n => exact Number.Fits.equals_self h (List.mem_singleton.mpr rfl) rfl

/-- What a cosine pattern has to be. -/
structure CosinePattern.IsValid (p : CosinePattern Number) : Prop where
  horizontal : p.horizontal.Fits
  vertical : p.vertical.Fits
  orientation : p.orientation.Fits [.finite, .orientation]
  maxGain : p.maxGain.Fits [.finite]
  horizontalExponent : Element.screenExponent p.horizontal = .ok ()
  verticalExponent : Element.screenExponent p.vertical = .ok ()

/-- What a parabolic pattern has to be. -/
structure ParabolicPattern.IsValid (p : ParabolicPattern Number) : Prop where
  horizontal : p.horizontal.Fits [.beamwidth (some 180) true]
  vertical : p.vertical.Fits [.beamwidth (some 180) true]
  maxAttenuation : p.maxAttenuation.Fits [.finite, .nonNegative]
  sideLobeAttenuation : p.sideLobeAttenuation.Fits [.finite, .nonNegative]
  maxGain : p.maxGain.Fits [.finite]
  orientation : p.orientation.Fits [.finite, .orientation]

/-- What a sector pattern has to be. -/
structure SectorPattern.IsValid (p : SectorPattern Number) : Prop where
  vertical : p.vertical.Fits [.beamwidth none false]
  horizontal : p.horizontal.Fits [.beamwidth none false]
  maxAttenuation : p.maxAttenuation.Fits [.finite, .nonNegative]
  sideLobeAttenuation : p.sideLobeAttenuation.Fits [.finite, .nonNegative]
  maxGain : p.maxGain.Fits [.finite]

namespace Element

/-- What an element has to be. -/
def IsValid : Element Number → Prop
  | .isotropic => True
  | .cosine p => p.IsValid
  | .parabolic p => p.IsValid
  | .sector p => p.IsValid

section Constructed

variable {args : Arguments}

theorem isValid_cosineOf {p : CosinePattern Number} (h : cosineOf args = .ok p) : p.IsValid := by
  obtain ⟨horizontal, hhorizontal, h⟩ := exists_of_bind_eq_ok h
  obtain ⟨vertical, hvertical, h⟩ := exists_of_bind_eq_ok h
  obtain ⟨orientation, horientation, h⟩ := exists_of_bind_eq_ok h
  obtain ⟨maxGain, hmaxGain, h⟩ := exists_of_bind_eq_ok h
  obtain ⟨⟨⟩, hexponent, h⟩ := exists_of_bind_eq_ok h
  obtain ⟨⟨⟩, hexponent', h⟩ := exists_of_bind_eq_ok h
  cases h
  have hlimit : (Beamwidth.ofNumber (.double 60)).Fits :=
    Beamwidth.fits_ofNumber ⟨60, rfl, by decide⟩
  have hnoLimit : (Beamwidth.ofNumber (.double (Binary64.infinite false))).Fits :=
    Beamwidth.fits_ofNumber_of_isInf (by decide)
  exact
    { horizontal := Arguments.fits_of_beamwidth hhorizontal hlimit
      vertical := Arguments.fits_of_beamwidth hvertical hnoLimit
      orientation := Arguments.fits_of_number horientation ⟨0, rfl, by decide⟩
      maxGain := Arguments.fits_of_number hmaxGain ⟨0, rfl, by decide⟩
      horizontalExponent := hexponent
      verticalExponent := hexponent' }

theorem isValid_parabolicOf {p : ParabolicPattern Number} (h : parabolicOf args = .ok p) :
    p.IsValid := by
  obtain ⟨horizontal, hhorizontal, h⟩ := exists_of_bind_eq_ok h
  obtain ⟨vertical, hvertical, h⟩ := exists_of_bind_eq_ok h
  obtain ⟨maxAttenuation, hmaxAttenuation, h⟩ := exists_of_bind_eq_ok h
  obtain ⟨sideLobe, hsideLobe, h⟩ := exists_of_bind_eq_ok h
  obtain ⟨maxGain, hmaxGain, h⟩ := exists_of_bind_eq_ok h
  obtain ⟨orientation, horientation, h⟩ := exists_of_bind_eq_ok h
  cases h
  exact
    { horizontal := Arguments.fits_of_number hhorizontal ⟨60, rfl, by decide⟩
      vertical := Arguments.fits_of_number hvertical ⟨60, rfl, by decide⟩
      maxAttenuation := Arguments.fits_of_number hmaxAttenuation ⟨30, rfl, by decide⟩
      sideLobeAttenuation := Arguments.fits_of_number hsideLobe ⟨30, rfl, by decide⟩
      maxGain := Arguments.fits_of_number hmaxGain ⟨8, rfl, by decide⟩
      orientation := Arguments.fits_of_number horientation ⟨0, rfl, by decide⟩ }

theorem isValid_sectorOf {p : SectorPattern Number} (h : sectorOf args = .ok p) :
    p.IsValid := by
  obtain ⟨horizontal, hhorizontal, h⟩ := exists_of_bind_eq_ok h
  obtain ⟨vertical, hvertical, h⟩ := exists_of_bind_eq_ok h
  obtain ⟨maxAttenuation, hmaxAttenuation, h⟩ := exists_of_bind_eq_ok h
  obtain ⟨sideLobe, hsideLobe, h⟩ := exists_of_bind_eq_ok h
  obtain ⟨maxGain, hmaxGain, h⟩ := exists_of_bind_eq_ok h
  cases h
  exact
    { horizontal := Arguments.fits_of_number hhorizontal ⟨65, rfl, by decide⟩
      vertical := Arguments.fits_of_number hvertical ⟨65, rfl, by decide⟩
      maxAttenuation := Arguments.fits_of_number hmaxAttenuation ⟨30, rfl, by decide⟩
      sideLobeAttenuation := Arguments.fits_of_number hsideLobe ⟨30, rfl, by decide⟩
      maxGain := Arguments.fits_of_number hmaxGain ⟨8, rfl, by decide⟩ }

/-- Whatever a construction gives is valid. -/
theorem isValid_construct {k : ElementKind} {e : Element Number} (h : construct k args = .ok e) :
    e.IsValid := by
  rw [construct_eq] at h
  obtain ⟨-, -, h⟩ := exists_of_bind_eq_ok h
  cases k with
  | isotropic =>
    cases h
    trivial
  | cosine =>
    obtain ⟨p, hp, h⟩ := exists_of_bind_eq_ok h
    cases h
    exact isValid_cosineOf hp
  | parabolic =>
    obtain ⟨p, hp, h⟩ := exists_of_bind_eq_ok h
    cases h
    exact isValid_parabolicOf hp
  | sector =>
    obtain ⟨p, hp, h⟩ := exists_of_bind_eq_ok h
    cases h
    exact isValid_sectorOf hp

end Constructed

/-! ## Equality -/

/-- A valid element equals itself. -/
theorem IsValid.equals_self {e : Element Number} (h : e.IsValid) : e.equals e = true := by
  have hfields : ∀ f ∈ e.fields, f.2.equals f.2 = true := by
    cases e with
    | isotropic => simp [fields]
    | cosine p =>
      simp only [fields, List.forall_mem_cons]
      exact ⟨h.horizontal.equals_self, h.vertical.equals_self,
        h.orientation.equals_self (List.mem_cons_self ..) rfl,
        h.maxGain.equals_self (List.mem_cons_self ..) rfl, by simp⟩
    | parabolic p =>
      simp only [fields, List.forall_mem_cons]
      exact ⟨h.horizontal.equals_self (List.mem_cons_self ..) rfl,
        h.vertical.equals_self (List.mem_cons_self ..) rfl,
        h.maxAttenuation.equals_self (List.mem_cons_self ..) rfl,
        h.sideLobeAttenuation.equals_self (List.mem_cons_self ..) rfl,
        h.maxGain.equals_self (List.mem_cons_self ..) rfl,
        h.orientation.equals_self (List.mem_cons_self ..) rfl, by simp⟩
    | sector p =>
      simp only [fields, List.forall_mem_cons]
      exact ⟨h.vertical.equals_self (List.mem_cons_self ..) rfl,
        h.horizontal.equals_self (List.mem_cons_self ..) rfl,
        h.maxAttenuation.equals_self (List.mem_cons_self ..) rfl,
        h.sideLobeAttenuation.equals_self (List.mem_cons_self ..) rfl,
        h.maxGain.equals_self (List.mem_cons_self ..) rfl, by simp⟩
  rw [equals, beq_self_eq_true, Bool.true_and, List.zip, List.zipWith_self, List.all_map,
    List.all_eq_true]
  exact hfields

end Element

namespace Panel

def equals (p q : Panel Float) : Bool :=
  (p.fields.zip q.fields).all fun (f, g) => f.2.equals g.2

theorem equals_iff {p q : Panel Float} :
    p.equals q = true ↔ p.rows = q.rows ∧ p.columns = q.columns ∧
      (p.horizontalSpacing == q.horizontalSpacing) = true ∧
      (p.verticalSpacing == q.verticalSpacing) = true ∧
      (p.bearing == q.bearing) = true ∧ (p.downtilt == q.downtilt) = true := by
  simp [equals, fields, Number.equals]

/-- A valid panel equals itself. -/
theorem IsValid.equals_self {p : Panel Float} (h : p.IsValid) : p.equals p = true :=
  equals_iff.mpr ⟨rfl, rfl, Requirement.beq_self_of_holds rfl h.horizontalSpacing,
    Requirement.beq_self_of_holds rfl h.verticalSpacing,
    Requirement.beq_self_of_holds rfl h.bearing, Requirement.beq_self_of_holds rfl h.downtilt⟩

end Panel

def Design.equals (d d' : Design) : Bool := d.panel.equals d'.panel && d.element.equals d'.element

end AntennaArray
