import AntennaArray.Proofs.Accepted
import AntennaArray.Proofs.CatalogLoading

/-!
# Reading back what was written

The settings of a panel and the description of an element are written by one part of the program
and read by another. Every name that is written is known to the reader, and every value that was
accepted once is accepted again and kept as it is, so a valid panel and an element that was
constructed come back unchanged.
-/

namespace AntennaArray

/-! ## Panels -/

namespace Panel

variable {p : Panel Float}

/-- The settings of a valid panel assemble to it, whatever the defaults are. -/
theorem assemble_arguments (h : p.IsValid) (base : Panel Float) :
    assemble base p.arguments = .ok p := by
  have hcount {n : ℕ} (hn : 0 < n) {name : Text} {default : { n : ℕ // 0 < n }}
      (hlookup : p.arguments.lookup name = some (.number (.integer n))) :
      p.arguments.count name default = .ok ⟨n, hn⟩ := by
    simp only [Arguments.count, hlookup, Int.toNat_natCast, dif_pos hn]
  have hnumber {x : Float} {r : Requirement} (hx : r.holds x = true) {name : Text}
      {default : Number} (hlookup : p.arguments.lookup name = some (.number (.double x))) :
      p.arguments.number name default [r] = .ok (.double x) :=
    Arguments.number_of_lookup hlookup ⟨x, rfl, List.forall_mem_singleton.mpr hx⟩
  rw [assemble, hcount p.rows_pos rfl, ok_bind, hcount p.columns_pos rfl, ok_bind,
    hnumber h.horizontalSpacing rfl, ok_bind, hnumber h.verticalSpacing rfl, ok_bind,
    hnumber h.bearing rfl, ok_bind, hnumber h.downtilt rfl, ok_bind]
  rfl

/-- The settings of a valid panel construct it. -/
theorem construct_arguments (h : p.IsValid) : construct p.arguments = .ok p := by
  have hnames : p.fields.map Prod.fst = settingNames := rfl
  have hknown : ∀ a ∈ p.arguments, ∃ n ∈ settingNames, a.1 = Text.ofString n := by
    intro a ha
    obtain ⟨f, hf, rfl⟩ := List.mem_map.mp ha
    exact ⟨f.1, hnames ▸ List.mem_map_of_mem hf, rfl⟩
  rw [construct, Arguments.screen_eq_ok.mpr hknown, ok_bind]
  exact assemble_arguments h standard

end Panel

/-! ## Elements -/

namespace Element

def arguments (e : Element Number) : Arguments :=
  e.fields.map fun (name, n) => (Text.ofString name, .number n)

theorem cosineOf_arguments {p : CosinePattern Number} (h : p.IsValid) :
    cosineOf (cosine p).arguments = .ok p := by
  rw [cosineOf, Arguments.beamwidth_of_lookup rfl h.horizontal, ok_bind,
    Arguments.beamwidth_of_lookup rfl h.vertical, ok_bind,
    Arguments.number_of_lookup rfl h.orientation, ok_bind,
    Arguments.number_of_lookup rfl h.maxGain, ok_bind, h.horizontalExponent, ok_bind,
    h.verticalExponent, ok_bind]
  rfl

theorem parabolicOf_arguments {p : ParabolicPattern Number} (h : p.IsValid) :
    parabolicOf (parabolic p).arguments = .ok p := by
  rw [parabolicOf, Arguments.number_of_lookup rfl h.horizontal, ok_bind,
    Arguments.number_of_lookup rfl h.vertical, ok_bind,
    Arguments.number_of_lookup rfl h.maxAttenuation, ok_bind,
    Arguments.number_of_lookup rfl h.sideLobeAttenuation, ok_bind,
    Arguments.number_of_lookup rfl h.maxGain, ok_bind,
    Arguments.number_of_lookup rfl h.orientation, ok_bind]
  rfl

theorem sectorOf_arguments {p : SectorPattern Number} (h : p.IsValid) :
    sectorOf (sector p).arguments = .ok p := by
  rw [sectorOf, Arguments.number_of_lookup rfl h.horizontal, ok_bind,
    Arguments.number_of_lookup rfl h.vertical, ok_bind,
    Arguments.number_of_lookup rfl h.maxAttenuation, ok_bind,
    Arguments.number_of_lookup rfl h.sideLobeAttenuation, ok_bind,
    Arguments.number_of_lookup rfl h.maxGain, ok_bind]
  rfl

/-- A model knows the parameters of its elements. -/
theorem knows_arguments (e : Element Number) : Knows e.kind e.arguments := by
  have hnames : e.fields.map Prod.fst = parameterNames e.kind := by cases e <;> rfl
  intro a ha
  obtain ⟨f, hf, rfl⟩ := List.mem_map.mp ha
  exact ⟨f.1, hnames ▸ List.mem_map_of_mem hf, rfl⟩

/-- A valid element is constructed from its own parameters. -/
theorem construct_arguments {e : Element Number} (h : e.IsValid) :
    construct e.kind e.arguments = .ok e := by
  rw [construct_eq, Arguments.screen_eq_ok.mpr (knows_arguments e), ok_bind]
  cases e with
  | isotropic => rfl
  | cosine p =>
    rw [kind, ofArguments, cosineOf_arguments h]
    rfl
  | parabolic p =>
    rw [kind, ofArguments, parabolicOf_arguments h]
    rfl
  | sector p =>
    rw [kind, ofArguments, sectorOf_arguments h]
    rfl

/-- A valid element is made from the word for its model and its parameters. -/
theorem make_arguments {e : Element Number} (h : e.IsValid) :
    make (.text e.kind.word) e.arguments = .ok e := by
  have hkind : (e.arguments.any (·.1 == Text.ofString "kind")) = false := by cases e <;> rfl
  have hword : ElementKind.ofWord? (Value.text (Text.ofString e.kind.word)).plain = some e.kind :=
    ElementKind.ofWord?_word e.kind
  rw [make, if_neg (by simp [hkind]), hword]
  simp only [construct_arguments h]

end Element

/-! ## Entries -/

namespace Design

/-- The entry with the settings of a panel and the description of an element. -/
def entryOf (d : Design) : Value :=
  .object (d.panel.arguments ++ [(("element" : Text), .object d.element.description)])

/-- The names of the settings are their keys, so the settings are read as they stand. -/
theorem settings_arguments (p : Panel Float) : settings p.arguments = .ok p.arguments := by
  rfl

/-- An element that is valid is read from its description. -/
theorem elementOf_description {e : Element Number} (h : e.IsValid) :
    elementOf (some (.object e.description)) = .ok e := by
  have hparameters : e.description.filter (fun f => !(f.1 == Text.ofString "type"))
      = e.arguments := by cases e <;> rfl
  have htype : e.description.lookup ("type" : Text)
      = some (.text (Text.ofString e.kind.word)) := rfl
  simp only [elementOf, htype, hparameters]
  exact Element.make_arguments h

/-- A design with a valid panel and an element that was constructed or made is read back from its
entry as it was, and equals itself. -/
theorem ofEntry_entryOf {d : Design} (hpanel : d.panel.IsValid)
    (helement : (∃ k args, Element.construct k args = .ok d.element) ∨
      ∃ kind args, Element.make kind args = .ok d.element) :
    ofEntry d.entryOf = .ok d ∧ d.equals d = true := by
  have hconstructed : ∃ k args, Element.construct k args = .ok d.element := by
    rcases helement with hconstruct | ⟨kind, args, hmake⟩
    · exact hconstruct
    · obtain ⟨k, hk⟩ := Element.exists_construct_of_make hmake
      exact ⟨k, args, hk⟩
  obtain ⟨k, args, hconstruct⟩ := hconstructed
  have hvalid := Element.isValid_construct hconstruct
  have hread : panelOf (d.panel.arguments ++
      [(("element" : Text), .object d.element.description)]) = .ok d.panel := by
    have hfields : settingFields (d.panel.arguments ++
        [(("element" : Text), .object d.element.description)]) = d.panel.arguments := rfl
    rw [panelOf, hfields, settings_arguments, ok_bind,
      construct_of_settings (settings_arguments d.panel)]
    exact Panel.assemble_arguments hpanel .standard
  have hspec : (d.panel.arguments ++
      [(("element" : Text), Value.object d.element.description)]).lookup (Text.ofString "element")
        = some (.object d.element.description) := rfl
  constructor
  · rw [entryOf, ofEntry_object, hread, ok_bind, hspec, elementOf_description hvalid, ok_bind]
  · rw [equals, hpanel.equals_self, hvalid.equals_self]
    rfl

/-- A panel as it is by default, with a cosine pattern of one integer beamwidth and no limit in the
other plane. -/
def halfPlane : Design :=
  ⟨.standard, .cosine ⟨.degrees (.integer 90), .unlimited, .double 0, .double 0⟩⟩

theorem isValid_halfPlane : halfPlane.element.IsValid where
  horizontal := by
    refine ⟨Binary64.ofInt 90, ?_, by decide +kernel⟩
    rw [Number.toDouble?]
    exact if_neg (by decide +kernel)
  vertical := trivial
  orientation := ⟨0, rfl, by decide +kernel⟩
  maxGain := ⟨0, rfl, by decide +kernel⟩
  horizontalExponent := if_neg (by decide +kernel)
  verticalExponent := if_neg (by decide +kernel)

/-- This design is read back. -/
theorem ofEntry_entryOf_halfPlane :
    halfPlane.panel.IsValid ∧
      Element.construct halfPlane.element.kind halfPlane.element.arguments
        = .ok halfPlane.element ∧
      ofEntry halfPlane.entryOf = .ok halfPlane ∧ halfPlane.equals halfPlane = true := by
  have hpanel : halfPlane.panel.IsValid := Panel.isValid_standard
  have hconstruct := Element.construct_arguments isValid_halfPlane
  exact ⟨hpanel, hconstruct, ofEntry_entryOf hpanel (.inl ⟨_, _, hconstruct⟩)⟩

end Design

end AntennaArray
