import AntennaArray.Arguments
import AntennaArray.Decimal.Reading
import AntennaArray.Panel.Basic
import AntennaArray.Tensor

/-!
# Panels from settings

A panel is made from settings by name; those that are missing take their defaults. Counts must be
positive integers, spacings positive and finite, and the two angles within their ranges. Spacings
and angles are kept as doubles.
-/

namespace AntennaArray

namespace Panel

/-- The name under which calls are reported. -/
def title : String := "ArrayConfig"

def settingNames : List String :=
  ["num_rows", "num_columns", "horizontal_spacing", "vertical_spacing", "bearing", "downtilt"]

def arguments (p : Panel Float) : Arguments :=
  p.fields.map fun (name, n) => (Text.ofString name, .number n)

/-- The panel with the given settings, the others as in `base`. -/
def assemble (base : Panel Float) (args : Arguments) : Attempt (Panel Float) := do
  let rows ← args.count "num_rows" ⟨base.rows, base.rows_pos⟩
  let columns ← args.count "num_columns" ⟨base.columns, base.columns_pos⟩
  let horizontal ← args.number "horizontal_spacing" (.double base.horizontalSpacing) [.positive]
  let vertical ← args.number "vertical_spacing" (.double base.verticalSpacing) [.positive]
  let bearing ← args.number "bearing" (.double base.bearing) [.bearing]
  let downtilt ← args.number "downtilt" (.double base.downtilt) [.downtilt]
  return { rows := rows.1, columns := columns.1, rows_pos := rows.2, columns_pos := columns.2
           horizontalSpacing := horizontal.toDouble, verticalSpacing := vertical.toDouble
           bearing := bearing.toDouble, downtilt := downtilt.toDouble }

def construct (args : Arguments) : Attempt (Panel Float) := do
  args.screen (title ++ ".__init__") "self" settingNames
  assemble standard args

def replace (p : Panel Float) (changes : Arguments) : Attempt (Panel Float) := do
  if changes.any (·.1 == "self") then .error (.call (.repeated (title ++ ".replace") "self"))
  else
    changes.screen (title ++ ".__init__") "self" settingNames
    assemble p changes

/-- The panel with a name; a list or an object names nothing. -/
def preset (name : Value) : Attempt (Panel Float) :=
  match name with
  | .list _ => .error (.noName name.kindWord)
  | .object _ => .error (.noName name.kindWord)
  | _ =>
    match presets.find? fun p => name.plain == Text.ofString p.1 with
    | some p => .ok p.2
    | none => refuse (.unknownPreset name.plain)

end Panel

namespace Value

mutual

/-- The sizes of nested lists, if they are the same throughout. -/
def shape? : Value → Option (List Nat)
  | .list items => itemShapes? items
  | _ => some []

/-- The common sizes of some items, after their number. -/
def itemShapes? : List Value → Option (List Nat)
  | [] => some [0]
  | [v] => (shape? v).map (1 :: ·)
  | v :: rest => do
    match ← itemShapes? rest with
    | n :: inner => if (← shape? v) = inner then some ((n + 1) :: inner) else none
    | [] => none

end

mutual

/-- The values in nested lists, in order. -/
def leaves : Value → List Value
  | .list items => itemLeaves items
  | v => [v]

/-- The values in some items, in order. -/
def itemLeaves : List Value → List Value
  | [] => []
  | v :: rest => leaves v ++ itemLeaves rest

end

/-- A value that is no list as a double: truth counts as one, nothing as not a number, and a text is
read. -/
def leafDouble : Value → Attempt Float
  | .null => .ok Binary64.nan
  | .bool b => .ok (if b then 1 else 0)
  | .number n =>
    match n.toDouble? with
    | some x => .ok x
    | none => .error .integerTooLarge
  | .text s =>
    match Decimal.readDouble? s.toChars with
    | some x => .ok x
    | none => reject (.notDouble s)
  | v => .error (.notADouble v.kindWord)

/-- Whether lists are nested unevenly or too deeply for the axes of a tensor. -/
def isRagged (v : Value) : Bool :=
  match v.shape? with
  | none => true
  | some shape => Tensor.axisLimit < shape.length

/-- A value as a double. A list is none, but what is in it has to do for a table of doubles. -/
def coerceDouble (v : Value) : Attempt Float := do
  if v.isRagged then throw .incompatible
  match v with
  | .list _ =>
    let _ ← v.leaves.mapM leafDouble
    throw .notSingle
  | _ => leafDouble v

end Value

namespace Panel

/-- The names of the settings with the angles in degrees. -/
def degreeNames : List String :=
  ["num_rows", "num_columns", "horizontal_spacing", "vertical_spacing", "bearing_deg",
    "downtilt_deg"]

/-- The names of the settings in degrees. -/
def angleNames : List Text := ["bearing_deg", "downtilt_deg"]

/-- The angle in radians that an argument gives in degrees, whatever stands for a double. -/
def degreeSetting (args : Arguments) (name : Text) : Attempt Value := do
  match args.lookup name with
  | none => return .number (.double 0)
  | some v => return .number (.double (Angle.toRadians (← v.coerceDouble)))

/-- The panel with the given settings, where the angles are in degrees. -/
def ofDegrees (args : Arguments) : Attempt (Panel Float) := do
  args.screen (title ++ ".from_degrees") "cls" degreeNames
  let bearing ← degreeSetting args "bearing_deg"
  let downtilt ← degreeSetting args "downtilt_deg"
  let others := args.filter fun a => !angleNames.contains a.1
  construct (others ++ [(("bearing" : Text), bearing), (("downtilt" : Text), downtilt)])

end Panel

end AntennaArray
