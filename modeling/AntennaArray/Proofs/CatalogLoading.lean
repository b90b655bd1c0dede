import AntennaArray.Catalog
import AntennaArray.Proofs.ElementMaking

/-!
# Loading a catalog

A file with text in it either gives a catalog of valid designs or is refused, with three kinds of
exceptions that escape: a text whose value is too large to be read, an entry with a number that is
too large or too small for its element or panel, and an element that names its model twice.
`FileFails` says exactly which texts these are.
-/

namespace AntennaArray

namespace Design

/-! ## Settings of a panel -/

/-- Whether a field of an entry gives a setting. -/
def settingCheck (f : Text × Value) : Attempt Unit := void (setting f.1 f.2)

/-- A field escapes if it is an angle in degrees that is too large. -/
theorem escapes_setting {key : Text} {v : Value} :
    Escapes (setting key v) ↔
      key ∈ Panel.angleNames ∧ ∃ n, v = .number (.integer n) ∧ IsTooLarge n := by
  rw [setting]
  split
  · next h =>
    rw [escapes_bind, Arguments.escapes_requireNumber]
    have hnever : ¬∃ n, Arguments.requireNumber key v [] = .ok n ∧
        Escapes (.ok ((if key == "bearing_deg" then "bearing" else "downtilt" : Text),
          Value.number (.double (Angle.toRadians n.toDouble))) : Attempt (Text × Value)) := by
      rintro ⟨n, -, hn⟩
      exact not_escapes_ok _ hn
    have hkey : key ∈ Panel.angleNames := by simpa using h
    constructor
    · intro hcases
      rcases hcases with hlarge | hrest
      · exact ⟨hkey, hlarge⟩
      · exact absurd hrest hnever
    · rintro ⟨-, hlarge⟩
      exact .inl hlarge
  · next h =>
    have hkey : key ∉ Panel.angleNames := by simpa using h
    refine iff_of_false ?_ fun hboth => hkey hboth.1
    split
    · exact not_escapes_ok _
    · exact not_escapes_refuse _

/-- A setting that is given is one of a panel. -/
theorem exists_name_of_setting {key name : Text} {v value : Value}
    (h : setting key v = .ok (name, value)) : ∃ n ∈ Panel.settingNames, name = Text.ofString n := by
  rw [setting] at h
  split at h
  · obtain ⟨n, -, h⟩ := exists_of_bind_eq_ok h
    cases h
    split
    · exact ⟨"bearing", by decide, rfl⟩
    · exact ⟨"downtilt", by decide, rfl⟩
  · split at h
    · next hkey =>
      cases h
      simpa using hkey
    · cases h

/-- The settings are read field by field. -/
theorem void_settings (fields : Arguments) :
    void (settings fields) = checkAll settingCheck fields := by
  rw [settings]
  generalize ([] : Arguments) = known
  induction fields generalizing known with
  | nil => rfl
  | cons f fields ih =>
    rw [List.foldlM_cons, checkAll, settingCheck, bind_assoc]
    refine void_bind fun s => ?_
    exact ih _

/-- A field that is set is the new one or an old one. -/
theorem mem_setField {known : Arguments} {name : Text} {value : Value} {a : Text × Value}
    (h : a ∈ Value.setField known name value) : a = (name, value) ∨ a ∈ known := by
  rw [Value.setField] at h
  split at h
  · obtain ⟨f, hf, hfa⟩ := List.mem_map.mp h
    split at hfa
    · exact .inl hfa.symm
    · rw [hfa] at hf
      exact .inr hf
  · rcases List.mem_append.mp h with hold | hnew
    · exact .inr hold
    · exact .inl (List.mem_singleton.mp hnew)

/-- All settings that are read are settings of a panel. -/
theorem exists_name_of_mem_settings {fields args : Arguments} (h : settings fields = .ok args) :
    ∀ a ∈ args, ∃ n ∈ Panel.settingNames, a.1 = Text.ofString n := by
  rw [settings] at h
  have hknown : ∀ a ∈ ([] : Arguments), ∃ n ∈ Panel.settingNames, a.1 = Text.ofString n := by
    simp
  generalize ([] : Arguments) = known at h hknown
  induction fields generalizing known with
  | nil =>
    cases h
    exact hknown
  | cons f fields ih =>
    rw [List.foldlM_cons] at h
    obtain ⟨next, hnext, h⟩ := exists_of_bind_eq_ok h
    obtain ⟨⟨name, value⟩, hsetting, hnext⟩ := exists_of_bind_eq_ok hnext
    cases hnext
    refine ih (Value.setField known name value) h ?_
    intro a ha
    rcases mem_setField ha with rfl | hold
    · exact exists_name_of_setting hsetting
    · exact hknown a hold

/-! ## The panel of an entry -/

def settingFields (fields : Arguments) : Arguments := fields.filter fun f => !ownNames.contains f.1

def panelOf (fields : Arguments) : Attempt (Panel Float) :=
  settings (settingFields fields) >>= Panel.construct

/-- The settings that are read are known to a panel. -/
theorem construct_of_settings {fields args : Arguments} (h : settings fields = .ok args) :
    Panel.construct args = Panel.assemble .standard args := by
  rw [Panel.construct, Arguments.screen_eq_ok.mpr (exists_name_of_mem_settings h), ok_bind]

/-- A panel that is read from an entry is valid. -/
theorem isValid_panelOf {fields : Arguments} {p : Panel Float} (h : panelOf fields = .ok p) :
    p.IsValid := by
  obtain ⟨args, hargs, h⟩ := exists_of_bind_eq_ok h
  rw [construct_of_settings hargs] at h
  exact Panel.isValid_assemble Panel.isValid_standard h

/-- How reading the panel of an entry escapes. -/
inductive PanelFails (fields : Arguments) : Prop
  /-- An angle in degrees is an integer that is too large. -/
  | angle {before : Arguments} {key : Text} {n : Int} {after : Arguments}
      (split : settingFields fields = before ++ (key, .number (.integer n)) :: after)
      (isAngle : key ∈ Panel.angleNames) (large : IsTooLarge n)
      (accepted : ∀ f ∈ before, ∃ s, setting f.1 f.2 = .ok s)
  /-- A parameter of the panel is an integer that is too large. -/
  | overflow {args : Arguments} {before : List Parameter} {p : Parameter} {after : List Parameter}
      (read : settings (settingFields fields) = .ok args)
      (split : Panel.parameters = before ++ p :: after) (overflows : p.Overflows args)
      (accepted : ∀ q ∈ before, q.check args = .ok ())

theorem escapes_panelOf {fields : Arguments} : Escapes (panelOf fields) ↔ PanelFails fields := by
  have hsettings : Escapes (settings (settingFields fields)) ↔ ∃ before f after,
      settingFields fields = before ++ f :: after ∧ Escapes (settingCheck f) ∧
        ∀ g ∈ before, settingCheck g = .ok () := by
    rw [← escapes_void, void_settings, escapes_checkAll]
  rw [panelOf, escapes_bind, hsettings]
  constructor
  · intro hcases
    rcases hcases with ⟨before, ⟨key, v⟩, after, hsplit, hf, hbefore⟩ | ⟨args, hargs, hpanel⟩
    · obtain ⟨hkey, n, rfl, hlarge⟩ := escapes_setting.mp (escapes_void.mp hf)
      exact .angle hsplit hkey hlarge fun g hg => void_eq_ok.mp (hbefore g hg)
    · rw [construct_of_settings hargs, ← escapes_void, Panel.void_assemble,
        Parameter.escapes_checkAll_check] at hpanel
      obtain ⟨before, p, after, hsplit, hp, hbefore⟩ := hpanel
      exact .overflow hargs hsplit hp hbefore
  · intro h
    cases h with
    | angle hsplit hkey hlarge hbefore =>
      refine .inl ⟨_, _, _, hsplit, ?_, fun g hg => void_eq_ok.mpr (hbefore g hg)⟩
      exact escapes_void.mpr (escapes_setting.mpr ⟨hkey, _, rfl, hlarge⟩)
    | overflow hargs hsplit hp hbefore =>
      refine .inr ⟨_, hargs, ?_⟩
      rw [construct_of_settings hargs, ← escapes_void, Panel.void_assemble,
        Parameter.escapes_checkAll_check]
      exact ⟨_, _, _, hsplit, hp, hbefore⟩

/-! ## The element of an entry -/

/-- The parameters of a described element. -/
def elementArguments (spec : Arguments) : Arguments :=
  spec.filter fun f => !(f.1 == Text.ofString "type")

/-- How making a described element escapes. -/
inductive ElementFails (spec : Arguments) : Prop
  /-- The model is named once more by the keyword that stands for it. -/
  | repeated {model v : Value} (typed : spec.lookup (Text.ofString "type") = some model)
      (given : (Text.ofString "kind", v) ∈ spec)
  /-- The model knows all its parameters, and one of them does not do. -/
  | parameter {model : Value} {k : ElementKind}
      (typed : spec.lookup (Text.ofString "type") = some model)
      (word : ElementKind.ofWord? model.plain = some k)
      (known : Element.Knows k (elementArguments spec))
      (fails : Element.Fails (elementArguments spec) k)

/-- The type of an element is not its kind. -/
theorem exists_kind_elementArguments {fields : Arguments} :
    (∃ a ∈ elementArguments fields, a.1 = Text.ofString "kind") ↔
      ∃ v, (Text.ofString "kind", v) ∈ fields := by
  have hother : (!(Text.ofString "kind" == Text.ofString "type")) = true := by decide
  constructor
  · rintro ⟨⟨key, v⟩, ha, rfl⟩
    exact ⟨v, (List.mem_filter.mp ha).1⟩
  · rintro ⟨v, hv⟩
    exact ⟨(Text.ofString "kind", v), List.mem_filter.mpr ⟨hv, hother⟩, rfl⟩

/-- An element that has a type is made from its other fields. -/
theorem escapes_make_elementArguments {fields : Arguments} {model : Value}
    (htyped : fields.lookup (Text.ofString "type") = some model) :
    Escapes (Element.make model (elementArguments fields)) ↔ ElementFails fields := by
  rw [Element.escapes_make, exists_kind_elementArguments]
  constructor
  · intro h
    rcases h with ⟨v, hv⟩ | ⟨k, hk, hknown, hfails⟩
    · exact .repeated htyped hv
    · exact .parameter htyped hk hknown hfails
  · intro hfails
    cases hfails with
    | repeated typed given => exact .inl ⟨_, given⟩
    | parameter typed word known fails =>
      rw [htyped] at typed
      cases typed
      exact .inr ⟨_, word, known, fails⟩

/-- An element that fails has a type. -/
theorem ElementFails.exists_type {fields : Arguments} (h : ElementFails fields) :
    ∃ model, fields.lookup (Text.ofString "type") = some model := by
  cases h with
  | repeated typed => exact ⟨_, typed⟩
  | parameter typed => exact ⟨_, typed⟩

theorem escapes_elementOf {spec : Option Value} :
    Escapes (elementOf spec) ↔ ∃ fields, spec = some (.object fields) ∧ ElementFails fields := by
  simp only [elementOf]
  split
  · simp
  · simp
  · next fields =>
    simp only [Option.some.injEq, Value.object.injEq, exists_eq_left']
    cases htyped : fields.lookup (Text.ofString "type") with
    | none =>
      refine iff_of_false (not_escapes_refuse _) fun hfails => ?_
      obtain ⟨model, hmodel⟩ := hfails.exists_type
      rw [htyped] at hmodel
      cases hmodel
    | some model => exact escapes_make_elementArguments htyped
  · next v hnull hfields =>
    refine iff_of_false (not_escapes_refuse _) ?_
    rintro ⟨fields, hobject, -⟩
    exact hfields fields (Option.some.inj hobject)

/-- An element of an entry is the construction of its model. -/
theorem exists_construct_of_elementOf {spec : Option Value} {e : Element Number}
    (h : elementOf spec = .ok e) : ∃ k args, Element.construct k args = .ok e := by
  simp only [elementOf] at h
  split at h
  · exact ⟨.isotropic, [], h⟩
  · exact ⟨.isotropic, [], h⟩
  · split at h
    · obtain ⟨k, hk⟩ := Element.exists_construct_of_make h
      exact ⟨k, _, hk⟩
    · cases h
  · cases h

/-! ## Entries -/

/-- A design of a catalog has a valid panel and an element that was constructed. -/
structure IsValid (d : Design) : Prop where
  panel : d.panel.IsValid
  element : ∃ k args, Element.construct k args = .ok d.element

/-- How reading an entry escapes. -/
inductive EntryFails (entry : Value) : Prop
  /-- The panel is not read. -/
  | panel {fields : Arguments} (object : entry = .object fields) (fails : PanelFails fields)
  /-- The panel is read, but not the element. -/
  | element {fields spec : Arguments} {p : Panel Float} (object : entry = .object fields)
      (panel : panelOf fields = .ok p)
      (given : fields.lookup (Text.ofString "element") = some (.object spec))
      (fails : ElementFails spec)

theorem ofEntry_object (fields : Arguments) :
    ofEntry (.object fields) = panelOf fields >>= fun p =>
      elementOf (fields.lookup (Text.ofString "element")) >>= fun e => .ok ⟨p, e⟩ := by
  simp only [ofEntry, panelOf, settingFields, bind_assoc]
  rfl

theorem escapes_ofEntry {entry : Value} : Escapes (ofEntry entry) ↔ EntryFails entry := by
  cases entry with
  | object fields =>
    have hdesign : ∀ p, Escapes (elementOf (fields.lookup (Text.ofString "element")) >>=
        fun e => (.ok ⟨p, e⟩ : Attempt Design)) ↔
          Escapes (elementOf (fields.lookup (Text.ofString "element"))) := by
      intro p
      rw [escapes_bind]
      simp
    rw [ofEntry_object, escapes_bind, escapes_panelOf]
    simp only [hdesign, escapes_elementOf]
    constructor
    · intro hcases
      rcases hcases with hpanel | ⟨p, hp, spec, hspec, helement⟩
      · exact .panel rfl hpanel
      · exact .element rfl hp hspec helement
    · intro h
      cases h with
      | panel object fails =>
        cases object
        exact .inl fails
      | element object panel given fails =>
        cases object
        exact .inr ⟨_, panel, _, given, fails⟩
  | _ =>
    refine iff_of_false (not_escapes_refuse _) fun h => ?_
    cases h with
    | panel object fails => cases object
    | element object panel given fails => cases object

theorem isValid_ofEntry {entry : Value} {d : Design} (h : ofEntry entry = .ok d) : d.IsValid := by
  cases entry with
  | object fields =>
    rw [ofEntry_object] at h
    obtain ⟨p, hp, h⟩ := exists_of_bind_eq_ok h
    obtain ⟨e, he, h⟩ := exists_of_bind_eq_ok h
    cases h
    exact ⟨isValid_panelOf hp, exists_construct_of_elementOf he⟩
  | _ => cases h

end Design

namespace Catalog

/-! ## Files -/

/-- The text of a file, with one character for each line end. -/
def textOf (chars : List Char) : Text := Text.unifyReturns (Text.ofChars chars)

/-- How loading a file with some text escapes. -/
inductive FileFails (text : Text) : Prop
  /-- A number has too many digits, or lists and objects are nested too deeply. -/
  | size {m : Json.Malformed} (read : Json.readRelaxed text = .error m)
      (size : m.problem.isFormal = false)
  /-- An entry is not read, and all before it are. -/
  | entry {before : Arguments} {name : Text} {entry : Value} {after : Arguments}
      (read : Json.readRelaxed text = .ok (.object (before ++ (name, entry) :: after)))
      (accepted : ∀ f ∈ before, ∃ d, Design.ofEntry f.2 = .ok d)
      (fails : Design.EntryFails entry)

/-- The name of a file changes nothing about an entry but the text of its refusal. -/
theorem exists_entry_eq_ok {path : Text} {field : Text × Value} :
    (∃ d, entry path field = .ok d) ↔ ∃ d, Design.ofEntry field.2 = .ok d := by
  rw [entry]
  cases Design.ofEntry field.2 with
  | ok d => simp
  | error f => cases f <;> simp [refuse]

theorem escapes_entry {path : Text} {field : Text × Value} :
    Escapes (entry path field) ↔ Design.EntryFails field.2 := by
  rw [← Design.escapes_ofEntry]
  rw [entry]
  cases Design.ofEntry field.2 with
  | ok d => simp
  | error f =>
    cases f with
    | misfit m =>
      exact iff_of_false (not_escapes_refuse _) (not_escapes_refuse m)
    | _ => exact iff_of_true ⟨_, rfl, rfl⟩ ⟨_, rfl, rfl⟩

theorem escapes_ofValue {path : Text} {v : Value} :
    Escapes (ofValue path v) ↔ ∃ before name entry after,
      v = .object (before ++ (name, entry) :: after) ∧
        (∀ f ∈ before, ∃ d, Design.ofEntry f.2 = .ok d) ∧ Design.EntryFails entry := by
  cases v with
  | object fields =>
    rw [ofValue, ← escapes_void, void_mapM, escapes_checkAll]
    simp only [escapes_void, escapes_entry, void_eq_ok, exists_entry_eq_ok, Value.object.injEq]
    constructor
    · rintro ⟨before, ⟨name, entry⟩, after, hsplit, hfails, hbefore⟩
      exact ⟨before, name, entry, after, hsplit, hbefore, hfails⟩
    · rintro ⟨before, name, entry, after, hsplit, hbefore, hfails⟩
      exact ⟨before, (name, entry), after, hsplit, hfails, hbefore⟩
  | _ =>
    refine iff_of_false (not_escapes_refuse _) ?_
    rintro ⟨before, name, entry, after, h, -⟩
    cases h

theorem isValid_ofValue {path : Text} {v : Value} {c : Catalog} (h : ofValue path v = .ok c) :
    ∀ d ∈ c, d.2.IsValid := by
  cases v with
  | object fields =>
    rw [ofValue] at h
    induction fields generalizing c with
    | nil =>
      cases h
      simp
    | cons field fields ih =>
      rw [List.mapM_cons] at h
      obtain ⟨d, hd, h⟩ := exists_of_bind_eq_ok h
      obtain ⟨ds, hds, h⟩ := exists_of_bind_eq_ok h
      cases h
      refine List.forall_mem_cons.mpr ⟨?_, ih hds⟩
      rw [entry] at hd
      split at hd
      · next design hdesign =>
        cases hd
        exact Design.isValid_ofEntry hdesign
      · cases hd
      · cases hd
  | _ => cases h

theorem escapes_valueOfText {path text : Text} :
    Escapes (valueOfText path text) ↔
      ∃ m, Json.readRelaxed text = .error m ∧ m.problem.isFormal = false := by
  rw [valueOfText]
  cases Json.readRelaxed text with
  | ok v => simp
  | error m =>
    cases hformal : m.problem.isFormal with
    | true => simp [hformal]
    | false =>
      refine iff_of_true ⟨.malformed m, ?_, rfl⟩ ⟨m, rfl, hformal⟩
      simp [hformal]

theorem valueOfText_eq_ok {path text : Text} {v : Value} :
    valueOfText path text = .ok v ↔ Json.readRelaxed text = .ok v := by
  rw [valueOfText]
  cases Json.readRelaxed text with
  | ok v => simp
  | error m =>
    cases hformal : m.problem.isFormal <;> simp [hformal, refuse]

variable {disk : Disk} {path : Path} {octets : List Nat} {chars : List Char}

/-- A file with text in it is read as that text. -/
theorem load_eq (hread : disk.read path = .ok octets)
    (hdecode : Text.Utf8.decode octets = .ok chars) :
    load disk path = valueOfText path.text (textOf chars) >>= ofValue path.text := by
  rw [load, hread, ok_bind, ofOctets, valueOfOctets, hdecode]
  rfl

/-- Loading a file with text in it escapes exactly where the text says so. -/
theorem escapes_load (hread : disk.read path = .ok octets)
    (hdecode : Text.Utf8.decode octets = .ok chars) :
    Escapes (load disk path) ↔ FileFails (textOf chars) := by
  rw [load_eq hread hdecode, escapes_bind, escapes_valueOfText]
  simp only [valueOfText_eq_ok, escapes_ofValue]
  constructor
  · intro hcases
    rcases hcases with ⟨m, hm, hsize⟩ | ⟨v, hv, before, name, entry, after, rfl, hbefore, hfails⟩
    · exact .size hm hsize
    · exact .entry hv hbefore hfails
  · intro h
    cases h with
    | size read size => exact .inl ⟨_, read, size⟩
    | entry read accepted fails => exact .inr ⟨_, read, _, _, _, _, rfl, accepted, fails⟩

/-- A file with text in it gives a catalog of valid designs or is refused, unless its text is one
of those that escape; and those do escape. -/
theorem load_outcome (hread : disk.read path = .ok octets)
    (hdecode : Text.Utf8.decode octets = .ok chars) :
    (¬FileFails (textOf chars) → (∃ c, load disk path = .ok c ∧ ∀ d ∈ c, d.2.IsValid) ∨
      IsRefused (load disk path)) ∧
    (FileFails (textOf chars) → Escapes (load disk path)) := by
  refine ⟨fun hfails => ?_, (escapes_load hread hdecode).mpr⟩
  rcases outcome (load disk path) with ⟨c, hc⟩ | hrefused | hescapes
  · refine .inl ⟨c, hc, ?_⟩
    rw [load_eq hread hdecode] at hc
    obtain ⟨v, -, hvalue⟩ := exists_of_bind_eq_ok hc
    exact isValid_ofValue hvalue
  · exact .inr hrefused
  · exact absurd ((escapes_load hread hdecode).mp hescapes) hfails

/-- A disk on which every file has the same text, in ASCII. -/
def diskWith (chars : List Char) : Disk := ⟨fun _ => some (chars.map Char.toNat), fun _ => false⟩

/-- A path to such a file. -/
def arraysPath : Path := ⟨"", ["arrays.json"]⟩

/-- A cosine pattern that is far too narrow. -/
def narrowElement : Arguments :=
  [("type", .text "cosine"), ("vertical_beamwidth", .number (.double 1e-9))]

/-- The text of a file with this pattern. -/
def narrowText : List Char :=
  "\x7b\"a\":\x7b\"element\":\x7b\"type\":\"cosine\",\"vertical_beamwidth\":1e-9\x7d\x7d\x7d".toList

/-- A beamwidth of a billionth of a degree has no exponent, so that loading escapes. -/
theorem load_outcome_narrow :
    (diskWith narrowText).read arraysPath = .ok (narrowText.map Char.toNat) ∧
      Text.Utf8.decode (narrowText.map Char.toNat) = .ok narrowText ∧
      Escapes (load (diskWith narrowText) arraysPath) := by
  have hread : (diskWith narrowText).read arraysPath = .ok (narrowText.map Char.toNat) := by rfl
  have hdecode : Text.Utf8.decode (narrowText.map Char.toNat) = .ok narrowText := by rfl
  refine ⟨hread, hdecode, (load_outcome hread hdecode).2 ?_⟩
  have hjson : Json.readRelaxed (textOf narrowText) = .ok (.object
      ([] ++ (("a" : Text), Value.object [("element", .object narrowElement)]) :: [])) := by rfl
  have hknown : Element.Knows .cosine (Design.elementArguments narrowElement) := by
    intro a ha
    rw [List.mem_singleton.mp ha]
    exact ⟨"vertical_beamwidth", by decide, rfl⟩
  have haccepted : ∀ p ∈ Element.parameters .cosine,
      p.check (Design.elementArguments narrowElement) = .ok () := by
    refine checkAll_eq_ok.mp ?_
    rfl
  have hdegenerate : Element.IsDegenerate (Design.elementArguments narrowElement)
      ("vertical_beamwidth", .double (Binary64.infinite false)) :=
    ⟨.degrees (.double 1e-9), rfl, by decide +kernel⟩
  refine .entry hjson (by simp) (.element rfl rfl rfl (.parameter rfl rfl hknown ?_))
  exact .degenerate haccepted (List.mem_cons_of_mem _ (List.mem_cons_self ..)) hdegenerate

/-- A text in which an element has both a type and a kind. -/
def repeatedText : List Char :=
  "\x7b\"a\": \x7b\"element\": \x7b\"type\": \"cosine\", \"kind\": 1\x7d\x7d\x7d".toList

/-- Not every file with text in it gives a catalog or is refused: a kind beside the type of an
element is a fault of the call. -/
theorem not_load_ok_or_isRefused :
    ¬∀ (disk : Disk) (path : Path) (octets : List Nat) (chars : List Char),
      disk.read path = .ok octets → Text.Utf8.decode octets = .ok chars →
        (∃ c, load disk path = .ok c ∧ ∀ d ∈ c, d.2.IsValid) ∨ IsRefused (load disk path) := by
  intro h
  have hload : load (diskWith repeatedText) arraysPath
      = .error (.call (.repeated "make_element" "kind")) := by rfl
  have houtcome := h (diskWith repeatedText) arraysPath _ repeatedText rfl rfl
  rw [hload] at houtcome
  rcases houtcome with ⟨c, hc, -⟩ | ⟨m, hm⟩
  · cases hc
  · cases hm

end Catalog

end AntennaArray
