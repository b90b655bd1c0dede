import AntennaArray.Codebook
import AntennaArray.Json.Reader
import AntennaArray.Json.Writer
import AntennaArray.Panel.Construction

/-!
# Records

A record keeps the tables of a sweep or of a codebook together with named attributes. An attribute
of a kind that a record cannot hold is kept as its JSON text. A codebook record may hold the panel
that it was made for, as the attribute `array_config`; an attribute of that name replaces it.
-/

namespace AntennaArray

-- powers are repeated products, whichever other powers are known
attribute [local instance (high)] instPowNat

/-- Attributes by name. -/
abbrev Attributes := List (Text × Value)

namespace Attribute

/-- What the entries of a list have in common. -/
inductive Family where
  | bools
  | integers
  /-- Integers beyond the signed range. -/
  | naturals
  | doubles
  | texts
deriving DecidableEq

/-- What one entry is, if a list can hold it. -/
def familyOf : Value → Option Family
  | .bool _ => some .bools
  | .number (.integer n) =>
    if -(2 ^ (63 : Nat)) ≤ n ∧ n < 2 ^ (63 : Nat) then some .integers
    else if 0 ≤ n ∧ n < 2 ^ (64 : Nat) then some .naturals
    else none
  | .number (.double _) => some .doubles
  | .text _ => some .texts
  | _ => none

/-- What two entries have in common: integers of both ranges are doubles together, and texts go with
texts only. -/
def join : Family → Family → Option Family
  | a, b =>
    if a = b then some a
    else
      match a, b with
      | .texts, _ => none
      | _, .texts => none
      | .bools, f => some f
      | f, .bools => some f
      | _, _ => some .doubles

/-- What all entries have in common; no entries count as doubles. -/
def common : List Value → Option Family
  | [] => some .doubles
  | [v] => familyOf v
  | v :: rest => do join (← familyOf v) (← common rest)

/-- An entry as one of a family. -/
def convert : Family → Value → Value
  | .integers, .bool b => .number (.integer (if b then 1 else 0))
  | .naturals, .bool b => .number (.integer (if b then 1 else 0))
  | .doubles, .bool b => .number (.double (if b then 1 else 0))
  | .doubles, .number n => .number (.double n.toDouble)
  | _, v => v

mutual

def convertAll (f : Family) : Value → Value
  | .list items => .list (convertItems f items)
  | v => convert f v

def convertItems (f : Family) : List Value → List Value
  | [] => []
  | v :: rest => convertAll f v :: convertItems f rest

end

mutual

/-- Whether there are texts in all nested lists and nothing else. -/
def hasTextsOnly : Value → Bool
  | .text _ => true
  | .list (v :: rest) => hasTextsOnly v && haveTextsOnly rest
  | _ => false

/-- Whether all of some items are texts or lists of them. -/
def haveTextsOnly : List Value → Bool
  | [] => true
  | v :: rest => hasTextsOnly v && haveTextsOnly rest

end

/-- What two lists have in common from the front on. -/
def sharedFront : List Nat → List Nat → List Nat
  | a :: as, b :: bs => if a = b then a :: sharedFront as bs else []
  | _, _ => []

mutual

/-- The sizes of nested lists as far as they are the same throughout. -/
def outline : Value → List Nat
  | .list [] => [0]
  | .list (v :: rest) => (rest.length + 1) :: itemOutline (outline v) rest
  | _ => []

/-- The sizes that some items have in common with each other and with given ones. -/
def itemOutline (shared : List Nat) : List Value → List Nat
  | [] => shared
  | v :: rest => itemOutline (sharedFront shared (outline v)) rest

end

/-- The values in nested lists down to a depth, in order. -/
def entriesAt : Nat → Value → List Value
  | depth + 1, .list items => items.flatMap (entriesAt depth)
  | _, v => [v]

/-- Refuses a text without octets, and one that a null character would end before its end. -/
def screen (s : Text) : Attempt Unit :=
  match Text.Utf8.unencodable? (fun _ => false) 0 s with
  | some u => .error (.unencodable u)
  | none => if s.contains (.char '\x00') then .error .incompatible else .ok ()

/-- Refuses entries whose text cannot be held, up to the first list among them. -/
def screenEntries : List Value → Attempt Unit
  | .text s :: rest => do screen s; screenEntries rest
  | .list _ :: _ => .ok ()
  | _ :: rest => screenEntries rest
  | [] => .ok ()

/-! ## The room of an attribute -/

/-- The greatest number of axes of an attribute. -/
def axisLimit : Nat := 32

/-- A number of octets, of which there are always groups of eight. -/
def padded (octets : Nat) : Nat := (octets + 7) / 8 * 8

/-- The octets in which a family is described; truth values are described with their names. -/
def Family.description : Family → Nat
  | .bools => 38
  | .integers => 12
  | .naturals => 12
  | .doubles => 20
  | .texts => 20

/-- The octets of an entry; a text stands elsewhere, and an entry says where. -/
def Family.entrySize : Family → Nat
  | .bools => 1
  | .texts => 16
  | _ => 8

/-- The octets of an attribute: a head, the name with an end mark, what the entries are, the sizes
of the axes, each of them twice, and the entries. -/
def room (name : Text) (f : Family) (shape : List Nat) : Nat :=
  padded (8 + padded (Text.Utf8.octetCount name + 1) + padded f.description
    + (8 + 16 * shape.length) + f.entrySize * volume shape)

/-- The least number of octets that no attribute has. -/
def roomLimit : Nat := 2 ^ (16 : Nat)

/-- Refuses an attribute with too many axes, without a name, or with too many octets. -/
def screenRoom (name : Text) (f : Family) (shape : List Nat) : Attempt Unit :=
  if axisLimit < shape.length then .error .incompatible
  else if name.isEmpty then .error .unnamed
  else if roomLimit ≤ room name f shape then .error .tooLarge
  else .ok ()

/-- A value as JSON text. -/
def keepAsJson (name : Text) (v : Value) : Attempt Value := do
  screenRoom name .texts []
  return .text (Json.write v)

/-- An attribute as it is kept. What has the form of a table but no entries that can be held is kept
as JSON text, and so are texts that are nested unevenly, after those up to the first list that is
too deep have been looked at; other lists without the form of a table are refused. -/
def keep (name : Text) (v : Value) : Attempt Value := do
  match v.shape?, common v.leaves with
  | none, _ =>
    if hasTextsOnly v then
      screenRoom name .texts (outline v)
      screenEntries (entriesAt (outline v).length v)
      keepAsJson name v
    else throw .incompatible
  | some shape, none =>
    if shape.length ≤ Tensor.axisLimit then keepAsJson name v else throw .incompatible
  | some shape, some f =>
    screenRoom name f shape
    screenEntries v.leaves
    return convertAll f v

/-- Refuses a name without octets. -/
def screenName (name : Text) : Attempt Unit :=
  match Text.Utf8.unencodable? (fun _ => false) 0 name with
  | some u => .error (.unencodable u)
  | none => .ok ()

/-- Attributes as they are kept, each in place of an earlier one of its name. A name ends at its
first null character. -/
def keepAll (known given : Attributes) : Attempt Attributes :=
  given.foldlM (fun kept (name, v) => do
    screenName name
    return Value.setField kept name.untilNull (← keep name.untilNull v)) known

end Attribute

/-- A kept sweep. -/
structure SweepRecord where
  theta : List Float
  phi : List Float
  gain : Tensor Float
  attributes : Attributes

namespace SweepRecord

/-- Keeps a sweep with a row for each azimuth. -/
def save (θ φ : List Float) (gain : Tensor Float) (given : Attributes) : Attempt SweepRecord := do
  if gain.shape = [φ.length, θ.length] then return ⟨θ, φ, gain, ← Attribute.keepAll [] given⟩
  else reject .gainShape

end SweepRecord

/-- A kept codebook with its directions. -/
structure CodebookRecord where
  directions : Tensor Float
  codebook : Codebook Float
  attributes : Attributes

namespace CodebookRecord

/-- The name of the attribute that holds the panel. -/
def panelKey : Text := "array_config"

/-- The settings of a panel as JSON text. -/
def panelText (p : Panel Float) : String := Json.write (.object p.arguments)

/-- Keeps a codebook with a direction for each entry. -/
def save (directions : Tensor Float) (codebook : Codebook Float) (panel : Option (Panel Float))
    (given : Attributes) : Attempt CodebookRecord := do
  match directions.shape, codebook.shape with
  | [count, 2], [rows, _] =>
    if count = rows then
      let known := match panel with
        | some p => [(panelKey, .text (panelText p))]
        | none => []
      return ⟨directions, codebook, ← Attribute.keepAll known given⟩
    else reject .codebookRows
  | _, _ => reject .codebookRows

/-- The word for a kept attribute that is no text. -/
def keptWord : Value → String
  | .bool _ => "bool"
  | .number (.integer n) => if n < 2 ^ (63 : Nat) then "int64" else "uint64"
  | .number (.double _) => "float64"
  | _ => "ndarray"

/-- The panel that an attribute describes. -/
def panelOf (v : Value) : Attempt (Panel Float) :=
  match v with
  | .text s =>
    match Json.read s with
    | .ok (.object fields) => Panel.construct fields
    | .ok w => .error (.call (.notFields "phasedarray.config.ArrayConfig" w.kindWord))
    | .error m => .error (.malformed m)
  | _ => .error (.notJsonText (keptWord v))

/-- The panel of a record, if it holds one. -/
def panel? (r : CodebookRecord) : Attempt (Option (Panel Float)) :=
  match r.attributes.lookup panelKey with
  | some v => (panelOf v).map some
  | none => .ok none

/-- The attributes of a record other than its panel. -/
def others (r : CodebookRecord) : Attributes := r.attributes.filter (·.1 != panelKey)

end CodebookRecord

end AntennaArray
