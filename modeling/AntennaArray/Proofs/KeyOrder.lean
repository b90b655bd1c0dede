import AntennaArray.Proofs.Json.ValueTally
import AntennaArray.Proofs.PanelSettings

/-!
# The order of keys

An entry of a catalog is an object, whose keys come in some order. Every key but two is read on its
own, so the order does not matter to it; but an angle that is given both in radians and in degrees
is set by the last of its two keys, and the other is not even looked at. `forall_sameOutcome_iff`
says that these angles are the only ones for which the order of keys counts.
-/

namespace AntennaArray.Design

open Json (HasDistinctKeys)

/-! ## Reordered entries -/

/-- The same field, or the element with its own fields in another order. -/
inductive SameField : Text × Value → Text × Value → Prop
  | same (f : Text × Value) : SameField f f
  | element {spec spec' : Arguments} (h : spec.Perm spec') :
      SameField (Text.ofString "element", .object spec) (Text.ofString "element", .object spec')

/-- The same fields in another order, the fields of the element included. -/
def Reordered (fields fields' : Arguments) : Prop :=
  ∃ between, fields.Perm between ∧ List.Forall₂ SameField between fields'

/-- No key is given twice, neither in the entry nor in its element. -/
structure IsEntry (fields : Arguments) : Prop where
  distinct : HasDistinctKeys fields
  element : ∀ spec, (Text.ofString "element", .object spec) ∈ fields → HasDistinctKeys spec

/-- Two entries describe equal designs, or neither describes one. -/
def SameOutcome (fields fields' : Arguments) : Prop :=
  Alike (fun d d' => d.equals d' = true) (ofEntry (.object fields)) (ofEntry (.object fields'))

theorem reordered_of_perm {fields fields' : Arguments} (h : fields.Perm fields') :
    Reordered fields fields' :=
  ⟨fields', h, List.forall₂_same.mpr fun f _ => .same f⟩

/-! ## Lookups -/

section Lookups

variable {fields fields' : Arguments} {key : Text} {v w : Value}

/-- With distinct keys, what is found is what is there. -/
theorem lookup_eq_some_iff_mem (h : HasDistinctKeys fields) :
    fields.lookup key = some v ↔ (key, v) ∈ fields := by
  induction fields with
  | nil => simp
  | cons f fields ih =>
    obtain ⟨hf, hfields⟩ := List.nodup_cons.mp h
    rw [lookup_cons_eq, List.mem_cons]
    by_cases hkey : key = f.1
    · have hother : (key, v) ∉ fields := by
        intro hmem
        exact hf (hkey ▸ List.mem_map_of_mem hmem)
      simp [hkey ▸ hother, hkey, Prod.ext_iff, eq_comm]
    · simp [hkey, ih hfields, Prod.ext_iff]

/-- With distinct keys, one key has one value. -/
theorem eq_of_mem_of_mem (h : HasDistinctKeys fields) (hv : (key, v) ∈ fields)
    (hw : (key, w) ∈ fields) : v = w := by
  have hlookup := (lookup_eq_some_iff_mem h).mpr hv
  rw [(lookup_eq_some_iff_mem h).mpr hw] at hlookup
  exact (Option.some.inj hlookup).symm

theorem hasDistinctKeys_of_perm (h : fields.Perm fields') (hkeys : HasDistinctKeys fields) :
    HasDistinctKeys fields' :=
  (h.map Prod.fst).nodup hkeys

/-- The order of fields does not matter to what is found. -/
theorem lookup_of_perm (h : fields.Perm fields') (hkeys : HasDistinctKeys fields) (key : Text) :
    fields.lookup key = fields'.lookup key := by
  refine Option.ext fun v => ?_
  rw [lookup_eq_some_iff_mem hkeys, lookup_eq_some_iff_mem (hasDistinctKeys_of_perm h hkeys)]
  exact h.mem_iff

end Lookups

/-! ## The element -/

section Element

variable {args args' : Arguments}

/-- An element depends on what is found among its arguments, not on their order. -/
theorem ofArguments_congr (h : ∀ name, args.lookup name = args'.lookup name) (k : ElementKind) :
    Element.ofArguments args k = Element.ofArguments args' k := by
  have hnumber (name : Text) (default : Number) (required : List Requirement) :
      args.number name default required = args'.number name default required := by
    simp only [Arguments.number, h]
  have hbeamwidth (name : Text) (default : Number) :
      args.beamwidth name default = args'.beamwidth name default := by
    simp only [Arguments.beamwidth, hnumber, h]
  cases k with
  | isotropic => rfl
  | cosine => simp only [Element.ofArguments, Element.cosineOf, hnumber, hbeamwidth]
  | parabolic => simp only [Element.ofArguments, Element.parabolicOf, hnumber]
  | sector => simp only [Element.ofArguments, Element.sectorOf, hnumber]

theorem alike_make (h : args.Perm args') (hkeys : HasDistinctKeys args) (kind : Value) :
    Alike Eq (Element.make kind args) (Element.make kind args') := by
  refine .of_eq_ok_iff fun e => ?_
  simp only [Element.make_eq_ok_iff, Element.construct_eq_ok_iff, Element.Knows, h.mem_iff,
    ofArguments_congr (lookup_of_perm h hkeys)]

end Element

/-- The element of an entry is the same in every order of its fields. -/
theorem alike_elementOf {spec spec' : Arguments} (h : spec.Perm spec')
    (hkeys : HasDistinctKeys spec) :
    Alike Eq (elementOf (some (.object spec))) (elementOf (some (.object spec'))) := by
  have hfilter := h.filter fun f => !(f.1 == Text.ofString "type")
  have hdistinct : HasDistinctKeys (spec.filter fun f => !(f.1 == Text.ofString "type")) :=
    hkeys.sublist (List.filter_sublist.map Prod.fst)
  simp only [elementOf, lookup_of_perm h hkeys]
  cases spec'.lookup (Text.ofString "type") with
  | none => exact .error _ _
  | some kind => exact alike_make hfilter hdistinct kind

/-! ## What reordering leaves -/

section Reordering

variable {fields fields' : Arguments}

/-- Reordering keeps the fields that give settings. -/
theorem Reordered.settingFields_perm (h : Reordered fields fields') :
    (settingFields fields).Perm (settingFields fields') := by
  obtain ⟨between, hperm, hsame⟩ := h
  have heq : settingFields between = settingFields fields' := by
    clear hperm
    induction hsame with
    | nil => rfl
    | cons hf _ ih =>
      rw [settingFields, settingFields] at ih
      cases hf with
      | same f => rw [settingFields, settingFields, List.filter_cons, List.filter_cons, ih]
      | element hspec =>
        have hown : ownNames.contains (Text.ofString "element") = true := by decide
        simp only [settingFields, List.filter_cons, hown, Bool.not_true, Bool.false_eq_true,
          if_false, ih]
  exact heq ▸ hperm.filter _

/-- Reordering keeps the element, except for the order of its fields. -/
theorem Reordered.lookup_element (h : Reordered fields fields') (hkeys : HasDistinctKeys fields) :
    fields.lookup (Text.ofString "element") = fields'.lookup (Text.ofString "element") ∨
      ∃ spec spec', fields.lookup (Text.ofString "element") = some (.object spec) ∧
        fields'.lookup (Text.ofString "element") = some (.object spec') ∧ spec.Perm spec' := by
  obtain ⟨between, hperm, hsame⟩ := h
  rw [lookup_of_perm hperm hkeys]
  clear hperm
  induction hsame with
  | nil => exact .inl rfl
  | cons hf _ ih =>
    rw [lookup_cons_eq, lookup_cons_eq]
    cases hf with
    | same f =>
      split
      · exact .inl rfl
      · exact ih
    | element hspec => exact .inr ⟨_, _, if_pos rfl, if_pos rfl, hspec⟩

/-- The elements of reordered entries are equal, if there are any. -/
theorem Reordered.alike_elementOf (h : Reordered fields fields') (hentry : IsEntry fields) :
    Alike (fun e e' => e.equals e' = true) (elementOf (fields.lookup (Text.ofString "element")))
      (elementOf (fields'.lookup (Text.ofString "element"))) := by
  have heq : Alike Eq (elementOf (fields.lookup (Text.ofString "element")))
      (elementOf (fields'.lookup (Text.ofString "element"))) := by
    rcases h.lookup_element hentry.distinct with hsame | ⟨spec, spec', hspec, hspec', hperm⟩
    · rw [hsame]
      exact .refl fun _ _ => rfl
    · have hmem := (lookup_eq_some_iff_mem hentry.distinct).mp hspec
      rw [hspec, hspec']
      exact Design.alike_elementOf hperm (hentry.element spec hmem)
  refine heq.mono fun e e' he _ hee' => ?_
  obtain ⟨k, args, hconstruct⟩ := exists_construct_of_elementOf he
  exact hee' ▸ (Element.isValid_construct hconstruct).equals_self

end Reordering

/-! ## Angles that are given twice -/

/-- The angle that a panel takes from a value in radians. -/
def radianReading (a : PanelAngle) (v : Value) : Attempt Number :=
  Arguments.requireNumber a.name v [a.requirement]

/-- The angle that a panel takes from a value in degrees. -/
def degreeReading (a : PanelAngle) (w : Value) : Attempt Number :=
  setting a.degreeName w >>= fun s => radianReading a s.2

/-- If the angle is given both in radians and in degrees, both are accepted and equal. -/
def AngleAgrees (fields : Arguments) (a : PanelAngle) : Prop :=
  ∀ v w, (a.name, v) ∈ fields → (a.degreeName, w) ∈ fields →
    ∃ x y, radianReading a v = .ok x ∧ degreeReading a w = .ok y ∧
      (x.toDouble == y.toDouble) = true

/-! ## The panel -/

section Panel

variable {fields fields' args args' : Arguments}

/-- Whether a setting is given does not depend on the order of the fields. -/
theorem lookup_settings_eq_none (hmem : ∀ f, f ∈ fields ↔ f ∈ fields')
    (h : settings fields = .ok args) (h' : settings fields' = .ok args') {name : Text}
    (hnone : args.lookup name = none) : args'.lookup name = none := by
  cases hlookup : args'.lookup name with
  | none => rfl
  | some v =>
    obtain ⟨f, hf, hset⟩ := (lookup_settings h' name).1 v hlookup
    exact absurd hset ((lookup_settings h name).2 hnone f ((hmem f).mpr hf) v)

/-- A setting depends on the order of the fields only if it is an angle that is given both in
radians and in degrees; then it is given by one of the two. -/
theorem lookup_settings_cases (hkeys : HasDistinctKeys fields)
    (hmem : ∀ f, f ∈ fields ↔ f ∈ fields') (h : settings fields = .ok args)
    (h' : settings fields' = .ok args') (name : Text) :
    args.lookup name = args'.lookup name ∨ ∃ (a : PanelAngle) (v w s : Value), name = a.name ∧
      (a.name, v) ∈ fields ∧ (a.degreeName, w) ∈ fields ∧
      setting a.degreeName w = .ok (a.name, s) ∧
      ((args.lookup name = some v ∧ args'.lookup name = some s) ∨
        (args.lookup name = some s ∧ args'.lookup name = some v)) := by
  cases hlookup : args.lookup name with
  | none => exact .inl (lookup_settings_eq_none hmem h h' hlookup).symm
  | some s =>
    cases hlookup' : args'.lookup name with
    | none =>
      rw [lookup_settings_eq_none (fun f => (hmem f).symm) h' h hlookup'] at hlookup
      cases hlookup
    | some s' =>
      obtain ⟨⟨key, v⟩, hf, hset⟩ := (lookup_settings h name).1 s hlookup
      obtain ⟨⟨key', v'⟩, hf', hset'⟩ := (lookup_settings h' name).1 s' hlookup'
      rw [← hmem] at hf'
      -- both are given by the name, by the name and in degrees, or both in degrees
      rcases eq_or_degreeName_of_setting hset with ⟨rfl, rfl⟩ | ⟨a, rfl, rfl⟩
      · rcases eq_or_degreeName_of_setting hset' with ⟨rfl, rfl⟩ | ⟨a, rfl, rfl⟩
        · exact .inl (congrArg some (eq_of_mem_of_mem hkeys hf hf'))
        · exact .inr ⟨a, v, v', s', rfl, hf, hf', hset', .inl ⟨rfl, rfl⟩⟩
      · rcases eq_or_degreeName_of_setting hset' with ⟨rfl, rfl⟩ | ⟨b, rfl, hname⟩
        · exact .inr ⟨a, v', v, s, rfl, hf', hf, hset, .inr ⟨rfl, rfl⟩⟩
        · obtain rfl := PanelAngle.eq_of_name hname
          obtain rfl := eq_of_mem_of_mem hkeys hf hf'
          rw [hset] at hset'
          cases hset'
          exact .inl rfl

/-- Numbers that are equal where they are read are read alike. -/
theorem alike_number {name : Text} {default : Number} {required : List Requirement}
    {r : Requirement} (h : args.lookup name = args'.lookup name)
    (hdefault : default.Fits required) (hr : r ∈ required) (hnumeric : r.isNumeric = true) :
    Alike (fun n m => (n.toDouble == m.toDouble) = true) (args.number name default required)
      (args'.number name default required) := by
  have heq : args.number name default required = args'.number name default required := by
    simp only [Arguments.number, h]
  rw [← heq]
  exact .refl fun n hn => (Arguments.fits_of_number hn hdefault).beq_self hr hnumeric

/-- Panels are assembled alike from settings that are found alike. -/
theorem alike_assemble (hsame : ∀ name, (∀ a : PanelAngle, name ≠ a.name) →
      args.lookup name = args'.lookup name)
    (hangle : ∀ (a : PanelAngle) (default : Number), default.Fits [a.requirement] →
      Alike (fun n m => (n.toDouble == m.toDouble) = true)
        (args.number a.name default [a.requirement])
        (args'.number a.name default [a.requirement])) :
    Alike (fun p q => p.equals q = true) (Panel.assemble .standard args)
      (Panel.assemble .standard args') := by
  have hcount (name : Text) (hname : ∀ a : PanelAngle, name ≠ a.name)
      (default : { n : ℕ // 0 < n }) : args.count name default = args'.count name default := by
    simp only [Arguments.count, hsame name hname]
  have hspacing (name : Text) (hname : ∀ a : PanelAngle, name ≠ a.name) :
      Alike (fun n m => (n.toDouble == m.toDouble) = true)
        (args.number name (.double 0.5) [.positive])
        (args'.number name (.double 0.5) [.positive]) :=
    alike_number (hsame name hname) ⟨0.5, rfl, by decide +kernel⟩ (List.mem_singleton.mpr rfl) rfl
  have hother (name : Text) (hname : name ≠ PanelAngle.bearing.name ∧
      name ≠ PanelAngle.downtilt.name) : ∀ a : PanelAngle, name ≠ a.name := by
    intro a
    cases a with
    | bearing => exact hname.1
    | downtilt => exact hname.2
  rw [Panel.assemble, Panel.assemble, hcount "num_rows" (hother _ (by decide)),
    hcount "num_columns" (hother _ (by decide))]
  refine Alike.bind (.refl fun _ _ => rfl) fun rows rows' _ _ hrows => ?_
  refine Alike.bind (.refl fun _ _ => rfl) fun columns columns' _ _ hcolumns => ?_
  refine (hspacing "horizontal_spacing" (hother _ (by decide))).bind fun h h' _ _ hh => ?_
  refine (hspacing "vertical_spacing" (hother _ (by decide))).bind fun v v' _ _ hv => ?_
  refine (hangle .bearing (.double 0) ⟨0, rfl, by decide +kernel⟩).bind fun b b' _ _ hb => ?_
  refine (hangle .downtilt (.double 0) ⟨0, rfl, by decide +kernel⟩).bind fun d d' _ _ hd => ?_
  exact .ok (Panel.equals_iff.mpr
    ⟨congrArg Subtype.val hrows, congrArg Subtype.val hcolumns, hh, hv, hb, hd⟩)

/-- The panel is the same in every order, if both readings of each angle that is given twice
agree. -/
theorem alike_panelOf (hkeys : HasDistinctKeys (settingFields fields))
    (hmem : ∀ f, f ∈ settingFields fields ↔ f ∈ settingFields fields')
    (hagrees : ∀ a, AngleAgrees (settingFields fields) a) :
    Alike (fun p q => p.equals q = true) (panelOf fields) (panelOf fields') := by
  have hread : (∃ args, settings (settingFields fields) = .ok args) ↔
      ∃ args, settings (settingFields fields') = .ok args := by
    simp only [exists_settings_eq_ok, hmem]
  rw [panelOf, panelOf]
  cases h : settings (settingFields fields) with
  | error f =>
    rw [h] at hread
    cases h' : settings (settingFields fields') with
    | error g => exact .error f g
    | ok args' =>
      obtain ⟨args, hargs⟩ := hread.mpr ⟨args', h'⟩
      cases hargs
  | ok args =>
    obtain ⟨args', h'⟩ := hread.mp ⟨args, h⟩
    rw [h', ok_bind, ok_bind, construct_of_settings h, construct_of_settings h']
    refine alike_assemble (fun name hname => ?_) fun a default hdefault => ?_
    · rcases lookup_settings_cases hkeys hmem h h' name with hsame | ⟨a, -, -, -, ha, -⟩
      · exact hsame
      · exact absurd ha (hname a)
    · rcases lookup_settings_cases hkeys hmem h h' a.name with
        hsame | ⟨b, v, w, s, hb, hv, hw, hset, hlookups⟩
      · exact alike_number hsame hdefault (List.mem_singleton.mpr rfl) (by cases a <;> rfl)
      · obtain rfl := PanelAngle.eq_of_name hb
        obtain ⟨x, y, hx, hy, hxy⟩ := hagrees a v w hv hw
        rw [degreeReading, hset, ok_bind] at hy
        rw [radianReading] at hx hy
        rcases hlookups with ⟨hlookup, hlookup'⟩ | ⟨hlookup, hlookup'⟩
        · rw [Arguments.number_eq_requireNumber hlookup, hx,
            Arguments.number_eq_requireNumber hlookup', hy]
          exact .ok hxy
        · rw [Arguments.number_eq_requireNumber hlookup, hy,
            Arguments.number_eq_requireNumber hlookup', hx]
          exact .ok (Binary64.beq_symm hxy)

/-- The field that comes last decides its setting: a panel takes an angle from it. -/
theorem exists_reading_of_panelOf {f : Text × Value} {p : Panel Float} {a : PanelAngle}
    {value : Value} (hset : setting f.1 f.2 = .ok (a.name, value))
    (hfields : settingFields (fields ++ [f]) = settingFields fields ++ [f])
    (h : panelOf (fields ++ [f]) = .ok p) :
    ∃ n, radianReading a value = .ok n ∧ n.toDouble = a.ofPanel p := by
  obtain ⟨args, hargs, h⟩ := exists_of_bind_eq_ok h
  rw [construct_of_settings hargs] at h
  rw [hfields, settings_concat] at hargs
  obtain ⟨known, -, hargs⟩ := exists_of_bind_eq_ok hargs
  rw [hset, ok_bind] at hargs
  have hlookup : args.lookup a.name = some value := by
    cases hargs
    rw [lookup_setField, if_pos rfl]
  obtain ⟨rows, -, h⟩ := exists_of_bind_eq_ok h
  obtain ⟨columns, -, h⟩ := exists_of_bind_eq_ok h
  obtain ⟨horizontal, -, h⟩ := exists_of_bind_eq_ok h
  obtain ⟨vertical, -, h⟩ := exists_of_bind_eq_ok h
  obtain ⟨bearing, hbearing, h⟩ := exists_of_bind_eq_ok h
  obtain ⟨downtilt, hdowntilt, h⟩ := exists_of_bind_eq_ok h
  cases h
  cases a with
  | bearing => exact ⟨bearing, (Arguments.number_eq_requireNumber hlookup).symm.trans hbearing, rfl⟩
  | downtilt =>
    exact ⟨downtilt, (Arguments.number_eq_requireNumber hlookup).symm.trans hdowntilt, rfl⟩

end Panel

/-! ## Entries -/

section Entries

variable {fields fields' : Arguments}

/-- The keys of the angles give settings. -/
theorem isSetting_angle (a : PanelAngle) :
    ownNames.contains a.name = false ∧ ownNames.contains a.degreeName = false := by
  cases a <;> decide

/-- What an entry says about an angle is said by its settings. -/
theorem angleAgrees_settingFields {a : PanelAngle} (h : AngleAgrees fields a) :
    AngleAgrees (settingFields fields) a := by
  intro v w hv hw
  exact h v w (List.mem_filter.mp hv).1 (List.mem_filter.mp hw).1

/-- Entries whose angles agree describe equal designs in every order. -/
theorem sameOutcome_of_angleAgrees (hentry : IsEntry fields) (h : Reordered fields fields')
    (hagrees : ∀ a, AngleAgrees fields a) : SameOutcome fields fields' := by
  have hkeys : HasDistinctKeys (settingFields fields) :=
    hentry.distinct.sublist (List.filter_sublist.map Prod.fst)
  have hpanel := alike_panelOf hkeys (fun _ => h.settingFields_perm.mem_iff)
    fun a => angleAgrees_settingFields (hagrees a)
  rw [SameOutcome, ofEntry_object, ofEntry_object]
  refine hpanel.bind fun p p' _ _ hp => ?_
  refine (h.alike_elementOf hentry).bind fun e e' _ _ he => ?_
  exact .ok (by rw [equals, hp, he]; rfl)

/-- The panel of an entry that is accepted takes an angle from the field that comes last. -/
theorem exists_reading_of_ofEntry {f : Text × Value} {d : Design} {a : PanelAngle} {value : Value}
    (hset : setting f.1 f.2 = .ok (a.name, value)) (hf : ownNames.contains f.1 = false)
    (h : ofEntry (.object (fields ++ [f])) = .ok d) :
    ∃ n, radianReading a value = .ok n ∧ n.toDouble = a.ofPanel d.panel := by
  rw [ofEntry_object] at h
  obtain ⟨p, hp, h⟩ := exists_of_bind_eq_ok h
  obtain ⟨e, -, h⟩ := exists_of_bind_eq_ok h
  cases h
  refine exists_reading_of_panelOf hset ?_ hp
  rw [settingFields, List.filter_append, List.filter_cons_of_pos (by rw [hf]; rfl),
    List.filter_nil]
  rfl

/-- If an entry describes equal designs in every order, and describes one at all, both readings of
each angle that it gives twice agree: each of them is the last one in some order. -/
theorem angleAgrees_of_sameOutcome {d : Design} (hd : ofEntry (.object fields) = .ok d)
    (h : ∀ fields', Reordered fields fields' → SameOutcome fields fields') (a : PanelAngle) :
    AngleAgrees fields a := by
  -- the angle of the design is what any of its fields reads, once it is moved to the end
  have hlast {f : Text × Value} (hf : f ∈ fields) {value : Value}
      (hset : setting f.1 f.2 = .ok (a.name, value)) (hown : ownNames.contains f.1 = false) :
      ∃ n, radianReading a value = .ok n ∧ (a.ofPanel d.panel == n.toDouble) = true := by
    obtain ⟨before, after, rfl⟩ := List.append_of_mem hf
    have hperm : (before ++ f :: after).Perm (before ++ after ++ [f]) := by
      refine List.perm_middle.trans ?_
      exact (List.perm_append_singleton f (before ++ after)).symm
    obtain ⟨d', hd', heq⟩ := (h _ (reordered_of_perm hperm)).exists_of_ok hd
    obtain ⟨n, hn, hangle⟩ := exists_reading_of_ofEntry hset hown hd'
    refine ⟨n, hn, ?_⟩
    rw [hangle]
    rw [equals, Bool.and_eq_true, Panel.equals_iff] at heq
    cases a with
    | bearing => exact heq.1.2.2.2.2.1
    | downtilt => exact heq.1.2.2.2.2.2
  have hread : ∃ args, settings (settingFields fields) = .ok args := by
    rw [ofEntry_object] at hd
    obtain ⟨p, hp, -⟩ := exists_of_bind_eq_ok hd
    obtain ⟨args, hargs, -⟩ := exists_of_bind_eq_ok hp
    exact ⟨args, hargs⟩
  intro v w hv hw
  have hmem : (a.degreeName, w) ∈ settingFields fields :=
    List.mem_filter.mpr ⟨hw, by rw [(isSetting_angle a).2]; rfl⟩
  obtain ⟨s, hs⟩ := exists_settings_eq_ok.mp hread _ hmem
  obtain ⟨n, hn, hs'⟩ := exists_of_bind_eq_ok ((setting_degreeName a w).symm.trans hs)
  cases hs'
  obtain ⟨x, hx, hdx⟩ := hlast hv (setting_name a v) (isSetting_angle a).1
  obtain ⟨y, hy, hdy⟩ := hlast hw hs (isSetting_angle a).2
  refine ⟨x, y, hx, ?_, Binary64.beq_trans (Binary64.beq_symm hdx) hdy⟩
  rw [degreeReading, hs, ok_bind]
  exact hy

/-- The order of keys changes nothing about an entry exactly if the entry is accepted in no order,
or if both readings of each angle that it gives twice are accepted and equal. -/
theorem forall_sameOutcome_iff (hentry : IsEntry fields) :
    (∀ fields', Reordered fields fields' → SameOutcome fields fields') ↔
      (∀ fields', Reordered fields fields' → ∀ d, ofEntry (.object fields') ≠ .ok d) ∨
        ∀ a, AngleAgrees fields a := by
  have hself : Reordered fields fields := reordered_of_perm (.refl fields)
  constructor
  · intro h
    cases hd : ofEntry (.object fields) with
    | ok d => exact .inr (angleAgrees_of_sameOutcome hd h)
    | error f =>
      refine .inl fun fields' hreordered d hd' => ?_
      have hsame := h fields' hreordered
      rw [SameOutcome, hd, hd'] at hsame
      cases hsame
  · rintro (hrefused | hagrees) fields' hreordered
    · exact .of_not_ok (hrefused fields hself) (hrefused fields' hreordered)
    · exact sameOutcome_of_angleAgrees hentry hreordered hagrees

/-- An entry that gives its bearing twice, as zero each time. -/
def zeroTwice : Arguments :=
  [("bearing", .number (.double 0)), ("bearing_deg", .number (.double 0))]

/-- The order of its two keys changes nothing. -/
theorem forall_sameOutcome_zeroTwice :
    IsEntry zeroTwice ∧ ∀ fields', Reordered zeroTwice fields' → SameOutcome zeroTwice fields' := by
  have hentry : IsEntry zeroTwice :=
    { distinct := by
        rw [HasDistinctKeys]
        decide
      element := fun spec hspec => by simp [zeroTwice] at hspec }
  have hzero (name : Text) (required : List Requirement) (x : Float)
      (hx : ∀ r ∈ required, r.holds x = true) :
      Arguments.requireNumber name (.number (.double x)) required = .ok (.double x) :=
    Arguments.requireNumber_eq_ok_iff.mpr ⟨rfl, x, rfl, hx⟩
  have hagrees : ∀ a, AngleAgrees zeroTwice a := by
    intro a v w hv hw
    cases a with
    | bearing =>
      have hv : v = .number (.double 0) := by simpa [zeroTwice, PanelAngle.name] using hv
      have hw : w = .number (.double 0) := by simpa [zeroTwice, PanelAngle.degreeName] using hw
      subst hv hw
      refine ⟨.double 0, .double (Angle.toRadians 0), ?_, ?_, by decide +kernel⟩
      · exact hzero _ _ 0 (by decide +kernel)
      · rw [degreeReading, setting_degreeName, hzero _ _ 0 (by simp), ok_bind, ok_bind]
        exact hzero _ _ _ (by decide +kernel)
    | downtilt => simp [zeroTwice, PanelAngle.name] at hv
  exact ⟨hentry, (forall_sameOutcome_iff hentry).mpr (.inr hagrees)⟩

/-- An entry whose bearing in radians is no number, and is followed by one in degrees. -/
def overwritten : Arguments :=
  [("bearing", .text "x"), ("bearing_deg", .number (.integer 30))]

/-- The last of the two is set, and the first one is not looked at. -/
theorem exists_ofEntry_overwritten : ∃ d, ofEntry (.object overwritten) = .ok d := by
  have hread : Arguments.requireNumber PanelAngle.bearing.degreeName (.number (.integer 30)) []
      = .ok (.integer 30) := by
    refine Arguments.requireNumber_eq_ok_iff.mpr ⟨rfl, Binary64.ofInt 30, ?_, by simp⟩
    rw [Number.toDouble?]
    exact if_neg (by decide +kernel)
  have hset := setting_degreeName .bearing (.number (.integer 30))
  rw [hread, ok_bind] at hset
  have hfirst : settings [("bearing", .text "x")] = .ok [("bearing", .text "x")] := rfl
  have hsettings := settings_concat [("bearing", .text "x")]
    (PanelAngle.bearing.degreeName, .number (.integer 30))
  rw [hfirst, ok_bind, hset, ok_bind] at hsettings
  have hbearing : Arguments.requireNumber "bearing"
      (.number (.double (Angle.toRadians (Number.integer 30).toDouble))) [.bearing]
        = .ok (.double (Angle.toRadians (Number.integer 30).toDouble)) :=
    Arguments.requireNumber_eq_ok_iff.mpr ⟨rfl, _, rfl, by decide +kernel⟩
  have hpanel : panelOf overwritten = _ := congrArg (· >>= Panel.construct) hsettings
  have hassemble (v : Value) : Panel.assemble .standard [("bearing", v)]
      = Arguments.requireNumber "bearing" v [.bearing] >>= fun n =>
        .ok { Panel.standard with bearing := n.toDouble } := rfl
  have hset' (v w : Value) : Value.setField [("bearing", v)] PanelAngle.bearing.name w
      = [(("bearing" : Text), w)] := rfl
  simp only [ok_bind] at hpanel
  rw [ofEntry_object, hpanel, construct_of_settings hsettings, hset', hassemble, hbearing, ok_bind,
    ok_bind]
  exact ⟨_, rfl⟩

/-- The order of keys can matter: a bearing that is no number is not looked at if one in degrees
comes after it. -/
theorem not_sameOutcome :
    ¬∀ fields fields', IsEntry fields → Reordered fields fields' → SameOutcome fields fields' := by
  intro h
  have hentry : IsEntry overwritten :=
    { distinct := by
        rw [HasDistinctKeys]
        decide
      element := fun spec hspec => by simp [overwritten] at hspec }
  obtain ⟨d, hd⟩ := exists_ofEntry_overwritten
  have hperm : overwritten.Perm ([(("bearing_deg" : Text), Value.number (.integer 30))]
      ++ [(("bearing" : Text), Value.text "x")]) := .swap ..
  obtain ⟨d', hd', -⟩ := (h _ _ hentry (reordered_of_perm hperm)).exists_of_ok hd
  obtain ⟨n, hn, -⟩ :=
    exists_reading_of_ofEntry (setting_name .bearing (.text "x")) (isSetting_angle .bearing).1 hd'
  cases Arguments.requireNumber_eq_ok hn

end Entries

end AntennaArray.Design
