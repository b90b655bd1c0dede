import AntennaArray.Gain
import AntennaArray.Nested

/-!
# Transmitters

A transmitter is an array with a current vector of weights. Weights are set by a direction, which
steers the array, or as they are; setting them ends a transmission in all directions. They depend on
the places of the elements alone, so the elements may be of any type. A call to a transmitter reads
it, finds what it needs, and only then writes.
-/

namespace AntennaArray

/-- An array with its current weights, and whether it transmits in all directions. -/
structure Transmitter (ε : Type := Element Number) where
  placement : Placement Float
  element : ε
  current : Option (List (Phasor Float))
  omni : Bool
  size_pos : 0 < placement.size

/-- What the weights are set by. -/
inductive Target where
  | direction (d : Direction Float)
  | nested (ws : Nested (Phasor Float))

/-- Weights in a single row. -/
def Target.weights (ws : List (Phasor Float)) : Target := .nested (.ofList ws)

/-- The places of an array with isotropic elements. They have the weights of any array that stands
there. -/
def Placement.aperture (p : Placement Float) : PhasedArray Float := .of p .isotropic

namespace Transmitter

variable {ε α : Type}

/-- A transmitter without weights; an array has at least one element. -/
def build (p : Placement Float) (e : ε) : Attempt (Transmitter ε) :=
  if h : 0 < p.size then .ok ⟨p, e, none, false, h⟩ else refuse .noElements

/-- The array as it is now. -/
def array (t : Transmitter) : PhasedArray Float := .of t.placement t.element.toDoubles

/-- Refuses a target that takes the places of all elements, if there is no room for them. -/
def screen (t : Transmitter ε) : Target → Attempt Unit
  | .direction _ => t.placement.screen
  | .nested _ => .ok ()

/-- The weights that a target asks for. Nested weights are taken in row-major order, if their rows
are even. -/
def weightsFor (t : Transmitter ε) (target : Target) : Attempt (List (Phasor Float)) := do
  t.screen target
  match target with
  | .direction d => return t.placement.aperture.beam d
  | .nested ws =>
    if ws.isEven then t.placement.aperture.weights ws.entries else throw .incompatible

/-! ## Calls -/

/-- A call reads and writes a transmitter, and it may fail. What it wrote before stays written. -/
abbrev Call (ε : Type) := ExceptT Fault (StateM (Transmitter ε))

/-- Sets the weights, and ends a transmission in all directions. -/
def setting (target : Target) : Call ε Unit := do
  let ws ← (← MonadState.get).weightsFor target
  modify fun t => { t with current := some ws }
  modify fun t => { t with omni := false }

/-- Reads the current weights. -/
def reading : Call ε (List (Phasor Float)) := do
  match (← MonadState.get).current with
  | some ws => return ws
  | none => throw .noWeights

/-- Starts a transmission in all directions; the weights stay. -/
def spreading : Call ε Unit := modify fun t => { t with omni := true }

/-- Exchanges the elements; what has no gain is no element. -/
def swapping (element : Option ε) : Call ε Unit := do
  match element with
  | some e => modify fun t => { t with element := e }
  | none => (refuse .noGain : Attempt Unit)

/-- What a call answers, and the transmitter after it. -/
def outcome (t : Transmitter ε) (c : Call ε α) : Attempt α × Transmitter ε :=
  StateT.run (ExceptT.run c) t

/-- The transmitter after a call that succeeds. -/
def after (t : Transmitter ε) (c : Call ε α) : Attempt (Transmitter ε) :=
  (t.outcome c).1.map fun _ => (t.outcome c).2

/-- The transmitter with the weights that a target asks for. -/
def set (t : Transmitter ε) (target : Target) : Attempt (Transmitter ε) :=
  t.after (setting target)

def get (t : Transmitter ε) : Attempt (List (Phasor Float)) := (t.outcome reading).1

def goOmni (t : Transmitter ε) : Transmitter ε := (t.outcome spreading).2

def swap (t : Transmitter ε) (element : Option ε) : Attempt (Transmitter ε) :=
  t.after (swapping element)

/-- The display of an array on a panel. -/
def display (p : Panel Float) (e : Element Number) : String :=
  "PhasedArray(" ++ p.layoutText ++ ", element=" ++ e.display ++ ")"

/-- The display of a transmitter, if its elements stand on a panel. -/
def display? (t : Transmitter) : Option String :=
  match t.placement with
  | .panel p => some (display p t.element)
  | .points _ => none

/-! ## Runs -/

/-- One thing that is asked of a transmitter. -/
inductive Operation (ε : Type) where
  | set (target : Target)
  | get
  | omni
  | isOmni
  | swap (element : Option ε)

/-- What an operation answers. -/
inductive Answer where
  | done
  | weights (ws : List (Phasor Float))
  | flag (b : Bool)

/-- The call that an operation makes. -/
def Operation.call : Operation ε → Call ε Answer
  | .set target => do
    setting target
    return .done
  | .get => return .weights (← reading)
  | .omni => do
    spreading
    return .done
  | .isOmni => return .flag (← MonadState.get).omni
  | .swap element => do
    swapping element
    return .done

/-- What an operation answers, and the transmitter after it. -/
def perform (t : Transmitter ε) (op : Operation ε) : Attempt Answer × Transmitter ε :=
  t.outcome op.call

/-- An operation and its answer. -/
structure Event (ε : Type) where
  operation : Operation ε
  answer : Attempt Answer

def run (t : Transmitter ε) (ops : List (Operation ε)) : Transmitter ε :=
  ops.foldl (fun t op => (t.perform op).2) t

/-- Some operations with their answers. -/
def log (t : Transmitter ε) : List (Operation ε) → List (Event ε)
  | [] => []
  | op :: rest => ⟨op, (t.perform op).1⟩ :: log (t.perform op).2 rest

@[simp] theorem run_nil (t : Transmitter ε) : t.run [] = t := rfl

@[simp] theorem run_cons (t : Transmitter ε) (op : Operation ε) (rest : List (Operation ε)) :
    t.run (op :: rest) = (t.perform op).2.run rest := rfl

end Transmitter

end AntennaArray
