import AntennaArray.Proofs.Accepted
import AntennaArray.Proofs.CatalogLoading

/-!
# Settings of an entry

The fields of an entry are read in their order, and a setting that is given again replaces the one
before. So what is looked up among the settings was given by some field, and every name that a field
gives is found. The two angles of a panel are given by two keys each, in radians and in degrees.
-/

namespace AntennaArray

/-! ## Fields that are set -/

theorem lookup_cons_eq (f : Text × Value) (fields : Arguments) (key : Text) :
    List.lookup key (f :: fields) = if key = f.1 then some f.2 else fields.lookup key := by
  obtain ⟨k, v⟩ := f
  by_cases h : key = k
  · subst h
    simp
  · simp [List.lookup_cons, h, beq_false_of_ne h]

/-- A field that is set is found, and the others are as before. -/
theorem lookup_setField (known : Arguments) (name : Text) (value : Value) (key : Text) :
    (Value.setField known name value).lookup key
      = if key = name then some value else known.lookup key := by
  have hmap : (known.map fun f => if f.1 = name then (name, value) else f).lookup key
      = if key = name then (known.lookup name).map fun _ => value else known.lookup key := by
    induction known with
    | nil => simp
    | cons f known ih =>
      rw [List.map_cons, lookup_cons_eq, lookup_cons_eq, lookup_cons_eq, ih]
      by_cases hf : f.1 = name
      · by_cases hkey : key = name
        · simp [hf, hkey]
        · simp [hf, hkey]
      · by_cases hkey : key = name
        · simp [hf, hkey, Ne.symm hf]
        · simp [hf, hkey]
  simp only [Value.setField, beq_iff_eq]
  split
  · next hany =>
    rw [hmap]
    cases hname : known.lookup name with
    | none =>
      obtain ⟨f, hf, heq⟩ := List.any_eq_true.mp hany
      exact absurd (beq_of_eq (beq_iff_eq.mp heq).symm)
        (by simpa using List.lookup_eq_none_iff.mp hname f hf)
    | some v => rfl
  · next hany =>
    have hnone : known.lookup name = none := by
      refine List.lookup_eq_none_iff.mpr fun f hf => ?_
      have hne : f.1 ≠ name := by simpa using fun h => hany (List.any_eq_true.mpr ⟨f, hf, h⟩)
      simpa using Ne.symm hne
    rw [List.lookup_append, lookup_cons_eq]
    by_cases hkey : key = name
    · subst hkey
      simp [hnone]
    · simp [hkey]

/-! ## Angles -/

/-- The angles of a panel. -/
inductive PanelAngle where
  | bearing
  | downtilt

namespace PanelAngle

def name : PanelAngle → Text
  | .bearing => "bearing"
  | .downtilt => "downtilt"

def degreeName : PanelAngle → Text
  | .bearing => "bearing_deg"
  | .downtilt => "downtilt_deg"

def requirement : PanelAngle → Requirement
  | .bearing => .bearing
  | .downtilt => .downtilt

def ofPanel (p : Panel Float) : PanelAngle → Float
  | .bearing => p.bearing
  | .downtilt => p.downtilt

/-- The two angles have different names. -/
theorem eq_of_name {a b : PanelAngle} (h : a.name = b.name) : a = b := by
  have hne : PanelAngle.bearing.name ≠ PanelAngle.downtilt.name := by decide
  cases a with
  | bearing =>
    cases b with
    | bearing => rfl
    | downtilt => exact absurd h hne
  | downtilt =>
    cases b with
    | bearing => exact absurd h.symm hne
    | downtilt => rfl

end PanelAngle

/-! ## Settings that are read -/

namespace Design

/-- An angle in radians is a setting as it is given. -/
theorem setting_name (a : PanelAngle) (v : Value) : setting a.name v = .ok (a.name, v) := by
  cases a <;> rfl

/-- An angle in degrees has to be a number, and is set in radians. -/
theorem setting_degreeName (a : PanelAngle) (v : Value) :
    setting a.degreeName v = Arguments.requireNumber a.degreeName v [] >>= fun n =>
      .ok (a.name, .number (.double (Angle.toRadians n.toDouble))) := by
  cases a <;> rfl

/-- A setting is given by its own name or, if it is an angle, in degrees. -/
theorem eq_or_degreeName_of_setting {key name : Text} {v value : Value}
    (h : setting key v = .ok (name, value)) :
    (key = name ∧ v = value) ∨ ∃ a : PanelAngle, key = a.degreeName ∧ name = a.name := by
  rw [setting] at h
  split at h
  · next hkey =>
    have hkey : key = Text.ofString "bearing_deg" ∨ key = Text.ofString "downtilt_deg" := by
      simpa [Panel.angleNames] using hkey
    refine .inr ?_
    rcases hkey with rfl | rfl
    · obtain ⟨n, -, h⟩ := exists_of_bind_eq_ok h
      cases h
      exact ⟨.bearing, rfl, rfl⟩
    · obtain ⟨n, -, h⟩ := exists_of_bind_eq_ok h
      cases h
      exact ⟨.downtilt, rfl, rfl⟩
  · split at h
    · cases h
      exact .inl ⟨rfl, rfl⟩
    · cases h

/-- Settings are read where every field gives one. -/
theorem exists_settings_eq_ok {fields : Arguments} :
    (∃ args, settings fields = .ok args) ↔ ∀ f ∈ fields, ∃ s, setting f.1 f.2 = .ok s := by
  rw [← void_eq_ok, void_settings, checkAll_eq_ok]
  simp only [settingCheck, void_eq_ok]

/-- The last field sets its name after all others. -/
theorem settings_concat (fields : Arguments) (f : Text × Value) :
    settings (fields ++ [f]) = settings fields >>= fun known =>
      setting f.1 f.2 >>= fun s => .ok (Value.setField known s.1 s.2) := by
  simp only [settings, List.foldlM_append, List.foldlM_cons, List.foldlM_nil, bind_pure]
  rfl

/-- What is found among the settings is what some field gives, and each that is given is found. -/
theorem lookup_settings {fields args : Arguments} (h : settings fields = .ok args) (name : Text) :
    (∀ v, args.lookup name = some v → ∃ f ∈ fields, setting f.1 f.2 = .ok (name, v)) ∧
      (args.lookup name = none → ∀ f ∈ fields, ∀ v, setting f.1 f.2 ≠ .ok (name, v)) := by
  induction fields using List.reverseRecOn generalizing args with
  | nil =>
    cases h
    simp
  | append_singleton fields f ih =>
    rw [settings_concat] at h
    obtain ⟨known, hknown, h⟩ := exists_of_bind_eq_ok h
    obtain ⟨⟨key, value⟩, hset, h⟩ := exists_of_bind_eq_ok h
    cases h
    obtain ⟨hsome, hnone⟩ := ih hknown
    rw [lookup_setField]
    by_cases hname : name = key
    · subst hname
      simp only [if_true, Option.some.injEq, reduceCtorEq, false_imp_iff, and_true]
      rintro v rfl
      exact ⟨f, by simp, hset⟩
    · simp only [hname, if_false]
      constructor
      · intro v hv
        obtain ⟨g, hg, hgset⟩ := hsome v hv
        exact ⟨g, by simp [hg], hgset⟩
      · intro hmissing g hg v hgset
        rcases List.mem_append.mp hg with hold | hlast
        · exact hnone hmissing g hold v hgset
        · rw [List.mem_singleton.mp hlast, hset] at hgset
          cases hgset
          exact hname rfl

end Design

end AntennaArray
