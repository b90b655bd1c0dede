import AntennaArray.Number
import AntennaArray.Text.Quoted

/-!
# Values

What a description file or a caller may hand over: nothing, a truth value, a number, a text, a list
or an object with its fields in order. `Value.display` writes a value for a message.
-/

namespace AntennaArray

/-- A value of a description. -/
inductive Value where
  | null
  | bool (b : Bool)
  | number (n : Number)
  | text (s : Text)
  | list (items : List Value)
  | object (fields : List (Text × Value))

namespace Value

mutual

/-- A value as a message shows it: texts quoted, lists in brackets, objects in braces. -/
def display : Value → String
  | .null => "None"
  | .bool true => "True"
  | .bool false => "False"
  | .number n => n.text
  | .text s => Text.quoted s
  | .list items => "[" ++ displayItems items ++ "]"
  | .object fields => "\x7b" ++ displayFields fields ++ "\x7d"

def displayItems : List Value → String
  | [] => ""
  | [v] => display v
  | v :: rest => display v ++ ", " ++ displayItems rest

def displayFields : List (Text × Value) → String
  | [] => ""
  | [(key, v)] => Text.quoted key ++ ": " ++ display v
  | (key, v) :: rest => Text.quoted key ++ ": " ++ display v ++ ", " ++ displayFields rest

end

/-- A value as it stands for itself: a text without its marks, anything else as in a message. -/
def plain : Value → Text
  | .text s => s
  | v => display v

/-- The word for the kind of a value. -/
def kindWord : Value → String
  | .null => "NoneType"
  | .bool _ => "bool"
  | .number (.integer _) => "int"
  | .number (.double _) => "float"
  | .text _ => "str"
  | .list _ => "list"
  | .object _ => "dict"

/-- Fields in which a repeated key has its last value at its first place. -/
def setField (fields : List (Text × Value)) (key : Text) (value : Value) :
    List (Text × Value) :=
  if fields.any (·.1 == key) then
    fields.map fun f => if f.1 == key then (key, value) else f
  else fields ++ [(key, value)]

/-- A key that is new comes last; otherwise the keys stay. -/
theorem keys_setField (fields : List (Text × Value)) (key : Text) (value : Value) :
    (setField fields key value).map Prod.fst =
      if key ∈ fields.map Prod.fst then fields.map Prod.fst else fields.map Prod.fst ++ [key] := by
  have hany : fields.any (·.1 == key) = true ↔ key ∈ fields.map Prod.fst := by
    simp
  by_cases hkey : key ∈ fields.map Prod.fst
  · rw [setField, if_pos (hany.mpr hkey), if_pos hkey, List.map_map]
    refine List.map_congr_left fun f _ => ?_
    by_cases hf : f.1 = key <;> simp [hf]
  · rw [setField, if_neg fun h => hkey (hany.mp h), if_neg hkey, List.map_append]
    rfl

end Value

end AntennaArray
