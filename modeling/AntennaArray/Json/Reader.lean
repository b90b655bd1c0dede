import AntennaArray.Json.Token

/-!
# Values of JSON texts

The tokens of a text are read one after another. A `State` says what may come next and holds the
lists and objects that are still open, innermost first; there is a limit to how many may be open. A
repeated key keeps its first place and its last value.
-/

namespace AntennaArray.Json

/-- A list or an object that is still open; the items of a list come latest first. -/
inductive Frame where
  | list (items : List Value)
  | object (fields : List (Text × Value)) (key : Text)

/-- What may come next. -/
inductive State where
  /-- A value, or the end of a list that has just been opened. -/
  | item (opened : Bool) (stack : List Frame)
  /-- A key, or the end of an object that has just been opened. -/
  | key (opened : Bool) (fields : List (Text × Value)) (stack : List Frame)
  | colon (fields : List (Text × Value)) (key : Text) (stack : List Frame)
  /-- A comma or the end of the innermost list or object. -/
  | separator (frame : Frame) (stack : List Frame)
  | done (v : Value)

/-- What is wrong with a text, and where: line, column and position, from one, one and zero. -/
structure Malformed where
  problem : Problem
  line : Nat
  column : Nat
  position : Nat
deriving DecidableEq

/-- The sentence with the place; what is wrong in size has none. -/
def Malformed.message (m : Malformed) : String :=
  if m.problem.isFormal then
    m.problem.message ++ ": line " ++ toString m.line ++ " column " ++ toString m.column
      ++ " (char " ++ toString m.position ++ ")"
  else m.problem.message

/-- A problem at a position of a text. -/
def Malformed.at (text : Text) (problem : Problem) (position : Nat) : Malformed :=
  let before := text.take position
  { problem, position
    line := before.count (.char '\n') + 1
    column := (before.reverse.takeWhile (· ≠ .char '\n')).length + 1 }

/-- How many lists and objects may be open at a time. The format knows no such bound: it comes from
the environment, which lets calls nest a thousand deep, less the ten that lead to the reader. -/
def depthLimit : Nat := 990

namespace State

/-- The state after a whole value. -/
def complete (v : Value) : List Frame → State
  | [] => .done v
  | .list items :: stack => .separator (.list (v :: items)) stack
  | .object fields name :: stack => .separator (.object (Value.setField fields name v) name) stack

/-- The state after a token that stands where a value may. -/
def startValue (stack : List Frame) : Located → Except (Problem × Nat) State
  | ⟨_, .scalar v⟩ => .ok (complete v stack)
  | ⟨_, .text s⟩ => .ok (complete (.text s) stack)
  | ⟨position, .openList⟩ =>
    if stack.length < depthLimit then .ok (.item true stack)
    else .error (.tooDeep true, position)
  | ⟨position, .openObject⟩ =>
    if stack.length < depthLimit then .ok (.key true [] stack)
    else .error (.tooDeep false, position)
  | ⟨position, .badText problem offset⟩ => .error (problem, position + offset)
  | ⟨position, .badNumber digits⟩ => .error (.tooManyDigits digits, position)
  | ⟨position, _⟩ => .error (.missingValue, position)

def step : State → Located → Except (Problem × Nat) State
  | .item true stack, ⟨_, .closeList⟩ => .ok (complete (.list []) stack)
  | .item true stack, t => startValue (.list [] :: stack) t
  | .item false stack, t => startValue stack t
  | .key true fields stack, ⟨_, .closeObject⟩ => .ok (complete (.object fields) stack)
  | .key _ fields stack, ⟨_, .text s⟩ => .ok (.colon fields s stack)
  | .key .., ⟨position, .badText problem offset⟩ => .error (problem, position + offset)
  | .key .., ⟨position, _⟩ => .error (.missingKey, position)
  | .colon fields name stack, ⟨_, .colon⟩ => .ok (.item false (.object fields name :: stack))
  | .colon .., ⟨position, _⟩ => .error (.missingColon, position)
  | .separator (.list items) stack, ⟨_, .comma⟩ => .ok (.item false (.list items :: stack))
  | .separator (.list items) stack, ⟨_, .closeList⟩ => .ok (complete (.list items.reverse) stack)
  | .separator (.object fields _) stack, ⟨_, .comma⟩ => .ok (.key false fields stack)
  | .separator (.object fields _) stack, ⟨_, .closeObject⟩ =>
    .ok (complete (.object fields) stack)
  | .separator .., ⟨position, _⟩ => .error (.missingComma, position)
  | .done _, ⟨position, _⟩ => .error (.extraData, position)

/-- The value, if the text may end here. -/
def finish (length : Nat) : State → Except (Problem × Nat) Value
  | .done v => .ok v
  | .item .. => .error (.missingValue, length)
  | .key .. => .error (.missingKey, length)
  | .colon .. => .error (.missingColon, length)
  | .separator .. => .error (.missingComma, length)

end State

def ofTokens (length : Nat) (tokens : List Located) : Except (Problem × Nat) Value :=
  tokens.foldlM State.step (.item false []) >>= State.finish length

def read (text : Text) : Except Malformed Value :=
  if text.head? = some (.char '\uFEFF') then .error (.at text .byteOrderMark 0)
  else
    match ofTokens text.length (tokens 0 0 text) with
    | .ok v => .ok v
    | .error (problem, position) => .error (.at text problem position)

end AntennaArray.Json
