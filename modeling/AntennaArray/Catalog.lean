import AntennaArray.Disk
import AntennaArray.Element.Construction
import AntennaArray.Json.Relaxed
import AntennaArray.Panel.Construction
import AntennaArray.Text.Utf8

/-!
# Catalogs of arrays

A description file names panels with their elements. Each entry is an object with the settings of a
panel, angles in radians or degrees, and optionally an element. A catalog is read as a whole: the
first entry that is refused is reported with its name, and nothing is returned.
-/

namespace AntennaArray

/-- A panel and the element that stands at each of its places. -/
structure Design where
  panel : Panel Float
  element : Element Number

namespace Design

/-- The setting that a key of an entry gives. -/
def setting (key : Text) (v : Value) : Attempt (Text × Value) := do
  if Panel.angleNames.contains key then
    let n ← Arguments.requireNumber key v []
    let name : Text := if key == "bearing_deg" then "bearing" else "downtilt"
    return (name, .number (.double (Angle.toRadians n.toDouble)))
  else if Panel.settingNames.any (key == Text.ofString ·) then return (key, v)
  else refuse (.unknownKey key)

/-- The settings that an entry gives; the last one of a name counts. -/
def settings (fields : Arguments) : Attempt Arguments :=
  fields.foldlM (fun known (key, v) => do
    let (name, value) ← setting key v
    return Value.setField known name value) []

/-- The element that an entry gives; nothing stands for one without directivity. -/
def elementOf (spec : Option Value) : Attempt (Element Number) :=
  match spec with
  | none => .ok .isotropic
  | some .null => .ok .isotropic
  | some (.object fields) =>
    match fields.lookup ("type" : Text) with
    | some kind => Element.make kind (fields.filter fun f => !(f.1 == Text.ofString "type"))
    | none => refuse .elementNotTyped
  | some _ => refuse .elementNotTyped

/-- The keys of an entry that are no settings. -/
def ownNames : List Text := ["description", "element"]

def ofEntry (entry : Value) : Attempt Design := do
  match entry with
  | .object fields =>
    let own := fields.filter fun f => !ownNames.contains f.1
    let panel ← Panel.construct (← settings own)
    let element ← elementOf (fields.lookup ("element" : Text))
    return ⟨panel, element⟩
  | _ => refuse .entryNotObject

end Design

/-- Named arrays in the order of their file. -/
abbrev Catalog := List (Text × Design)

namespace Catalog

/-- The design of one entry of a file; a refusal names the file and the entry. -/
def entry (path : Text) (field : Text × Value) : Attempt (Text × Design) :=
  match Design.ofEntry field.2 with
  | .ok d => .ok (field.1, d)
  | .error (.misfit m) => refuse (.inEntry path field.1 m)
  | .error f => .error f

def ofValue (path : Text) : Value → Attempt Catalog
  | .object fields => fields.mapM (entry path)
  | _ => refuse (.fileNotObject path)

/-- The designs that come before the first entry that is refused. -/
def accepted (path : Text) : List (Text × Value) → Catalog
  | [] => []
  | field :: rest =>
    match entry path field with
    | .ok d => d :: accepted path rest
    | .error _ => []

def valueOfText (path text : Text) : Attempt Value :=
  match Json.readRelaxed text with
  | .ok v => .ok v
  | .error m => if m.problem.isFormal then refuse (.unreadable path m) else .error (.malformed m)

def valueOfOctets (path : Text) (octets : List Nat) : Attempt Value :=
  match Text.Utf8.decode octets with
  | .ok text => valueOfText path (Text.unifyReturns (Text.ofChars text))
  | .error d => .error (.encoding d)

def ofOctets (path : Text) (octets : List Nat) : Attempt Catalog := do
  ofValue path (← valueOfOctets path octets)

def load (disk : Disk) (path : Path) : Attempt Catalog := do
  ofOctets path.text (← disk.read path)

end Catalog

end AntennaArray
