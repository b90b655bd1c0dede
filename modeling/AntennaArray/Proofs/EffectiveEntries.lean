import AntennaArray.Proofs.CatalogLoading
import AntennaArray.Proofs.Json.Listing

/-!
# The entries of a catalog that count

A description file may give a name several times. The entries that count are those of
`Json.effective`, and they are loaded all or not at all (`IsWhole`): a bad entry that is overridden
later does not matter, one that overrides a good entry does, and the first one that is refused is
reported (`load_isWhole`).
-/

namespace AntennaArray.Catalog

open Json (IsListing effective exists_isListing)

/-- Some entries are loaded all or not at all: each gives the design that it describes, whatever the
others are, and the first one that describes none decides what is reported. -/
structure IsWhole (path : Text) (entries : List (Text × Value)) (loaded : Attempt Catalog) :
    Prop where
  succeeds_iff : (∃ c, loaded = .ok c) ↔ ∀ e ∈ entries, ∃ d, Design.ofEntry e.2 = .ok d
  designs : ∀ c, loaded = .ok c →
    List.Forall₂ (fun e d => d.1 = e.1 ∧ Design.ofEntry e.2 = .ok d.2) entries c
  refused : ∀ before name entry after m, entries = before ++ (name, entry) :: after →
    (∀ e ∈ before, ∃ d, Design.ofEntry e.2 = .ok d) → Design.ofEntry entry = .error (.misfit m) →
      ∃ whole : Misfit, loaded = .error (.misfit whole) ∧
        whole.message = path ++ ": config " ++ Text.quoted name ++ ": " ++ m.message
  escaped : ∀ before name entry after f, entries = before ++ (name, entry) :: after →
    (∀ e ∈ before, ∃ d, Design.ofEntry e.2 = .ok d) → Design.ofEntry entry = .error f →
      f.isMisfit = false → loaded = .error f

/-- An entry gives its name and the design that it describes. -/
theorem entry_eq_ok_iff {path : Text} {e : Text × Value} {d : Text × Design} :
    entry path e = .ok d ↔ d.1 = e.1 ∧ Design.ofEntry e.2 = .ok d.2 := by
  rw [entry]
  cases Design.ofEntry e.2 with
  | ok design => simp [Prod.ext_iff, eq_comm]
  | error f => cases f <;> simp [refuse]

/-- What refuses an entry refuses it under its name. -/
theorem entry_eq_inEntry {path : Text} {e : Text × Value} {m : Misfit}
    (h : Design.ofEntry e.2 = .error (.misfit m)) :
    entry path e = .error (.misfit (.inEntry path e.1 m)) := by
  rw [entry, h]
  rfl

/-- What is not about a configuration escapes from an entry as it is. -/
theorem entry_eq_error {path : Text} {e : Text × Value} {f : Fault}
    (h : Design.ofEntry e.2 = .error f) (hf : f.isMisfit = false) :
    entry path e = .error f := by
  rw [entry, h]
  cases f with
  | misfit m => cases hf
  | _ => rfl

theorem isWhole_ofValue (path : Text) (entries : List (Text × Value)) :
    IsWhole path entries (ofValue path (.object entries)) where
  succeeds_iff := by
    rw [ofValue, exists_mapM_eq_ok_iff]
    simp only [exists_entry_eq_ok]
  designs c h := (forall₂_of_mapM_eq_ok h).imp fun _ _ => entry_eq_ok_iff.mp
  refused before name entry after m hsplit hbefore hentry := by
    subst hsplit
    refine ⟨.inEntry path name m, ?_, rfl⟩
    exact mapM_eq_error (fun e he => exists_entry_eq_ok.mpr (hbefore e he))
      (entry_eq_inEntry hentry)
  escaped before name entry after f hsplit hbefore hentry hf := by
    subst hsplit
    exact mapM_eq_error (fun e he => exists_entry_eq_ok.mpr (hbefore e he))
      (entry_eq_error hentry hf)

/-- A file with the text of an object lists some entries, and of those that it lists the ones that
count are loaded all or not at all. -/
theorem load_isWhole {disk : Disk} {path : Path} {octets : List Nat} {chars : List Char}
    {fields : List (Text × Value)} (hread : disk.read path = .ok octets)
    (hdecode : Text.Utf8.decode octets = .ok chars)
    (hobject : Json.readRelaxed (textOf chars) = .ok (.object fields)) :
    (∃ entries, IsListing (textOf chars) entries) ∧
      ∀ entries, IsListing (textOf chars) entries →
        IsWhole path.text (effective entries) (load disk path) := by
  refine ⟨exists_isListing hobject, fun entries hentries => ?_⟩
  rw [load_eq hread hdecode, valueOfText_eq_ok.mpr hobject, ok_bind, hentries.eq_object hobject]
  exact isWhole_ofValue path.text (effective entries)

/-- An entry with a key that no panel has. -/
def strange : Value := .object [("rows", .number (.integer 2))]

/-- A text in which such an entry is overridden. -/
def coveredText : List Char :=
  "\x7b\"a\": \x7b\"rows\": 2\x7d, \"b\": \x7b\x7d, \"a\": \x7b\x7d\x7d".toList

/-- A text in which such an entry overrides another one; so there are two of them, and the one that
stands later in the file is the first one that counts. -/
def coveringText : List Char :=
  "\x7b\"a\": \x7b\x7d, \"b\": \x7b\"rows\": 2\x7d, \"a\": \x7b\"rows\": 2\x7d\x7d".toList

/-- An overridden entry does not matter; an entry that overrides another one has the place of that
one. -/
theorem load_isWhole_twice :
    ((diskWith coveredText).read arraysPath = .ok (coveredText.map Char.toNat) ∧
      Text.Utf8.decode (coveredText.map Char.toNat) = .ok coveredText ∧
      Json.readRelaxed (textOf coveredText)
        = .ok (.object [("a", .object []), ("b", .object [])]) ∧
      IsListing (textOf coveredText) [("a", strange), ("b", .object []), ("a", .object [])] ∧
      ∃ c, load (diskWith coveredText) arraysPath = .ok c) ∧
    ((diskWith coveringText).read arraysPath = .ok (coveringText.map Char.toNat) ∧
      Text.Utf8.decode (coveringText.map Char.toNat) = .ok coveringText ∧
      Json.readRelaxed (textOf coveringText)
        = .ok (.object [("a", strange), ("b", strange)]) ∧
      IsListing (textOf coveringText) [("a", .object []), ("b", strange), ("a", strange)] ∧
      ∃ m : Misfit, load (diskWith coveringText) arraysPath = .error (.misfit m) ∧
        m.message = "arrays.json: config 'a': unknown array config key: rows") := by
  have hempty : Json.Spells [.openObject, .closeObject] (.object []) := rfl
  have hstrange : Json.Spells [.openObject, .text "rows", .colon, .scalar (.number (.integer 2)),
      .closeObject] strange := rfl
  have hrefused : Design.ofEntry strange = .error (.misfit (.unknownKey "rows")) := rfl
  constructor
  · have hobject : Json.readRelaxed (textOf coveredText)
        = .ok (.object [("a", .object []), ("b", .object [])]) := rfl
    have hlisting : IsListing (textOf coveredText)
        [("a", strange), ("b", .object []), ("a", .object [])] :=
      .fields (.next hstrange (.next hempty (.last hempty)))
    refine ⟨rfl, rfl, hobject, hlisting, ?_⟩
    refine ((load_isWhole rfl rfl hobject).2 _ hlisting).succeeds_iff.mpr ?_
    have hdesign : ∃ d, Design.ofEntry (.object []) = .ok d := ⟨_, rfl⟩
    exact List.forall_mem_cons.mpr ⟨hdesign, List.forall_mem_cons.mpr ⟨hdesign, by simp⟩⟩
  · have hobject : Json.readRelaxed (textOf coveringText)
        = .ok (.object [("a", strange), ("b", strange)]) := rfl
    have hlisting : IsListing (textOf coveringText)
        [("a", .object []), ("b", strange), ("a", strange)] :=
      .fields (.next hempty (.next hstrange (.last hstrange)))
    exact ⟨rfl, rfl, hobject, hlisting, ((load_isWhole rfl rfl hobject).2 _ hlisting).refused
      [] "a" strange [("b", strange)] _ rfl (by simp) hrefused⟩

end AntennaArray.Catalog
