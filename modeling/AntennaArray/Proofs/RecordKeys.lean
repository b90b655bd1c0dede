import AntennaArray.Proofs.PanelSettings
import AntennaArray.Proofs.ReadBack
import AntennaArray.Record

/-!
# Attributes of a codebook record

The panel of a codebook and the attributes of the caller share their names: the panel is written
first, an attribute of its name replaces it, and what is read under that name is taken for the
panel. So a record gives back the panel and all attributes exactly where no attribute has that name,
and none has a null character, which ends a name early (`exists_save_iff`).
-/

namespace AntennaArray

/-! ## Names that end early -/

theorem Text.untilNull_eq_self_iff {t : Text} : t.untilNull = t ↔ .char '\x00' ∉ t := by
  rw [Text.untilNull, List.takeWhile_eq_self_iff]
  constructor
  · intro h hmem
    simpa using h _ hmem
  · intro h p hp
    simpa using ne_of_mem_of_not_mem hp h

theorem Text.null_notMem_untilNull (t : Text) : .char '\x00' ∉ t.untilNull := by
  intro hmem
  simpa using List.mem_takeWhile_imp hmem

/-! ## Attributes that are kept -/

namespace Attribute

variable {known given kept : Attributes} {name : Text}

/-- The attribute can be kept under its name. -/
def IsStorable (a : Text × Value) : Prop :=
  screenName a.1 = .ok () ∧ ∃ w, keep a.1.untilNull a.2 = .ok w

/-- The names are those that there were and the new one. -/
theorem mem_keys_setField (known : Attributes) (key : Text) (v : Value) :
    name ∈ (Value.setField known key v).map Prod.fst ↔ name = key ∨ name ∈ known.map Prod.fst := by
  rw [Value.keys_setField]
  by_cases hkey : key ∈ known.map Prod.fst
  · rw [if_pos hkey, iff_or_self]
    rintro rfl
    exact hkey
  · rw [if_neg hkey, List.mem_append, List.mem_singleton, or_comm]

/-- Attributes are kept where each of them can be. Each is kept under its name up to a null
character, beside or in place of what there was; the rest stays. -/
theorem exists_keepAll (known : Attributes) (h : ∀ a ∈ given, IsStorable a) :
    ∃ kept, keepAll known given = .ok kept ∧
      (∀ name, name ∈ kept.map Prod.fst ↔
        name ∈ known.map Prod.fst ∨ name ∈ given.map fun a => a.1.untilNull) ∧
      ∀ name, name ∉ (given.map fun a => a.1.untilNull) →
        kept.lookup name = known.lookup name := by
  induction given generalizing known with
  | nil => exact ⟨known, rfl, by simp, fun _ _ => rfl⟩
  | cons a given ih =>
    obtain ⟨key, v⟩ := a
    obtain ⟨⟨hname, w, hw⟩, hrest⟩ := List.forall_mem_cons.mp h
    obtain ⟨kept, hkept, hkeys, hlookup⟩ := ih (Value.setField known key.untilNull w) hrest
    dsimp only at hname hw
    refine ⟨kept, ?_, ?_, ?_⟩
    · rw [keepAll, List.foldlM_cons]
      dsimp only
      rw [hname, ok_bind, hw, ok_bind]
      exact hkept
    · intro name
      rw [hkeys, mem_keys_setField, List.map_cons, List.mem_cons]
      tauto
    · intro name hnew
      rw [List.map_cons, List.mem_cons, not_or] at hnew
      rw [hlookup name hnew.2, lookup_setField, if_neg hnew.1]

/-- Otherwise none is kept. -/
theorem isStorable_of_keepAll (h : keepAll known given = .ok kept) : ∀ a ∈ given, IsStorable a := by
  induction given generalizing known with
  | nil => simp
  | cons a given ih =>
    rw [keepAll, List.foldlM_cons] at h
    obtain ⟨next, hstep, h⟩ := exists_of_bind_eq_ok h
    obtain ⟨_, hname, hstep⟩ := exists_of_bind_eq_ok hstep
    obtain ⟨w, hw, -⟩ := exists_of_bind_eq_ok hstep
    exact List.forall_mem_cons.mpr ⟨⟨hname, w, hw⟩, ih h⟩

end Attribute

namespace CodebookRecord

/-! ## The panel of a record -/

/-- A panel is read back from its text where its settings are. -/
theorem panelOf_panelText {p : Panel Float} (h : p.IsValid)
    (hjson : Json.read (panelText p) = .ok (.object p.arguments)) :
    panelOf (.text (panelText p)) = .ok p := by
  simp only [panelOf, hjson]
  exact Panel.construct_arguments h

/-! ## The text of the standard panel -/

/-- Fields that are all numbers, by name. -/
def numbers? : Attributes → Option (List (Text × Number))
  | [] => some []
  | (key, .number n) :: rest => (numbers? rest).map ((key, n) :: ·)
  | _ => none

/-- The fields of an object whose fields are all numbers. -/
def objectNumbers? : Value → Option (List (Text × Number))
  | .object fields => numbers? fields
  | _ => none

theorem eq_map_of_numbers? {fields : Attributes} {numbers : List (Text × Number)}
    (h : numbers? fields = some numbers) : fields = numbers.map fun a => (a.1, .number a.2) := by
  induction fields generalizing numbers with
  | nil =>
    cases h
    rfl
  | cons f fields ih =>
    obtain ⟨key, v⟩ := f
    cases v with
    | number n =>
      obtain ⟨rest, hrest, rfl⟩ := Option.map_eq_some_iff.mp h
      rw [ih hrest]
      rfl
    | _ => cases h

deriving instance DecidableEq for Number

/-- The text of the standard panel spells its settings. -/
theorem read_panelText_standard :
    Json.read (panelText .standard) = .ok (.object Panel.standard.arguments) := by
  -- values cannot be compared by evaluation, but lists of numbers can
  have hnumbers : (Json.read (panelText .standard)).toOption.bind objectNumbers?
      = some (Panel.standard.fields.map fun f => (Text.ofString f.1, f.2)) := by
    decide +kernel
  obtain ⟨v, hv, hfields⟩ := Option.bind_eq_some_iff.mp hnumbers
  cases v with
  | object fields =>
    have hread : Json.read (panelText .standard) = .ok (.object fields) := by
      revert hv
      cases Json.read (panelText .standard) with
      | ok w => simp [Except.toOption]
      | error m => simp [Except.toOption]
    rw [hread, eq_map_of_numbers? hfields, List.map_map]
    rfl
  | _ => cases hfields

/-! ## What is given back -/

variable {directions : Tensor Float} {codebook : Codebook Float} {panel : Option (Panel Float)}
  {given kept : Attributes} {K M : ℕ}

/-- The record gives back the panel, and attributes of exactly the given names. -/
structure GivesBack (r : CodebookRecord) (panel : Option (Panel Float)) (given : Attributes) :
    Prop where
  panel : r.panel? = .ok panel
  names : ∀ name, name ∈ r.others.map Prod.fst ↔ name ∈ given.map Prod.fst

/-- What a record holds before the attributes of the caller are written. -/
def panelAttributes : Option (Panel Float) → Attributes
  | some p => [(panelKey, .text (panelText p))]
  | none => []

/-- The panel is held under its name alone. -/
theorem eq_panelKey_of_mem {name : Text} (h : name ∈ (panelAttributes panel).map Prod.fst) :
    name = panelKey := by
  cases panel with
  | none => simp [panelAttributes] at h
  | some p => simpa [panelAttributes] using h

/-- A codebook with as many rows as there are directions is kept where its attributes are. -/
theorem save_eq (hdirections : directions.shape = [K, 2]) (hcodebook : codebook.shape = [K, M]) :
    save directions codebook panel given =
      Attribute.keepAll (panelAttributes panel) given >>= fun kept =>
        .ok ⟨directions, codebook, kept⟩ := by
  unfold save
  rw [hdirections, hcodebook]
  simp only [↓reduceIte]
  cases panel <;> rfl

/-- The names of the other attributes are those that are kept, apart from the panel's. -/
theorem mem_names_others {r : CodebookRecord} {name : Text} :
    name ∈ r.others.map Prod.fst ↔ name ≠ panelKey ∧ name ∈ r.attributes.map Prod.fst := by
  simp only [others, List.mem_map, List.mem_filter, bne_iff_ne]
  constructor
  · rintro ⟨a, ⟨ha, hne⟩, rfl⟩
    exact ⟨hne, a, ha, rfl⟩
  · rintro ⟨hne, a, ha, rfl⟩
    exact ⟨a, ⟨ha, hne⟩, rfl⟩

/-- A panel that no other attribute replaced is read back. -/
theorem panel?_of_lookup (hvalid : ∀ p ∈ panel, p.IsValid)
    (hjson : ∀ p ∈ panel, Json.read (panelText p) = .ok (.object p.arguments))
    (h : kept.lookup panelKey = (panelAttributes panel).lookup panelKey) :
    panel? ⟨directions, codebook, kept⟩ = .ok panel := by
  simp only [panel?, h]
  cases panel with
  | none => rfl
  | some p =>
    have hlookup : (panelAttributes (some p)).lookup panelKey = some (.text (panelText p)) := rfl
    simp only [hlookup, panelOf_panelText (hvalid p rfl) (hjson p rfl)]
    rfl

/-- The panel and the names are given back exactly where no attribute is taken for the panel and no
name ends early. -/
theorem givesBack_iff (hvalid : ∀ p ∈ panel, p.IsValid)
    (hjson : ∀ p ∈ panel, Json.read (panelText p) = .ok (.object p.arguments))
    (h : Attribute.keepAll (panelAttributes panel) given = .ok kept) :
    GivesBack ⟨directions, codebook, kept⟩ panel given ↔
      ∀ a ∈ given, a.1 ≠ panelKey ∧ .char '\x00' ∉ a.1 := by
  obtain ⟨kept', hkept', hkeys, hlookup⟩ := Attribute.exists_keepAll (panelAttributes panel)
    (Attribute.isStorable_of_keepAll h)
  cases h.symm.trans hkept'
  constructor
  · intro hback a ha
    obtain ⟨hne, hmem⟩ := mem_names_others.mp ((hback.names a.1).mpr (List.mem_map_of_mem ha))
    rcases (hkeys a.1).mp hmem with hpanel | hgiven
    · exact absurd (eq_panelKey_of_mem hpanel) hne
    · obtain ⟨b, -, hb⟩ := List.mem_map.mp hgiven
      exact ⟨hne, hb ▸ Text.null_notMem_untilNull b.1⟩
  · intro hnames
    have huntil : (given.map fun a => a.1.untilNull) = given.map Prod.fst :=
      List.map_congr_left fun a ha => Text.untilNull_eq_self_iff.mpr (hnames a ha).2
    have hpanel : panelKey ∉ given.map Prod.fst := by
      intro hmem
      obtain ⟨a, ha, hkey⟩ := List.mem_map.mp hmem
      exact (hnames a ha).1 hkey
    rw [huntil] at hkeys hlookup
    refine ⟨panel?_of_lookup hvalid hjson (hlookup panelKey hpanel), fun name => ?_⟩
    rw [mem_names_others, hkeys]
    constructor
    · rintro ⟨hne, hmem | hmem⟩
      · exact absurd (eq_panelKey_of_mem hmem) hne
      · exact hmem
    · intro hmem
      exact ⟨fun hname => hpanel (hname ▸ hmem), .inr hmem⟩

end CodebookRecord

end AntennaArray
