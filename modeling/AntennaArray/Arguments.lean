import AntennaArray.Fault

/-!
# Named arguments

The arguments of a call, by name, in the order in which they are given. A parameter is read from
them with its default and with what is required of it.
-/

namespace AntennaArray

abbrev Arguments := List (Text × Value)

namespace Arguments

/-- Refuses the first argument that a call does not know; `own` is taken by the call itself. -/
def screen (callee own : String) (known : List String) (args : Arguments) : Attempt Unit :=
  match args.find? fun a => !known.any (a.1 == Text.ofString ·) with
  | none => .ok ()
  | some (name, _) =>
    if name = own then .error (.call (.repeated callee name))
    else .error (.call (.unexpected callee name))

/-- A value as a number, tested as a double. -/
def requireNumber (name : Text) (v : Value) (required : List Requirement) : Attempt Number :=
  match v with
  | .number n =>
    match n.toDouble? with
    | none => .error .integerTooLarge
    | some x =>
      match required.find? fun r => !r.holds x with
      | none => .ok n
      | some r => refuse (.parameter name v r)
  | _ => refuse (.parameter name v .real)

/-- The number that an argument gives, as it is given; without the argument the default. -/
def number (args : Arguments) (name : Text) (default : Number) (required : List Requirement) :
    Attempt Number :=
  match args.lookup name with
  | none => .ok default
  | some v => requireNumber name v required

/-- The positive integer that an argument gives; without the argument the default. -/
def count (args : Arguments) (name : Text) (default : { n : Nat // 0 < n }) :
    Attempt { n : Nat // 0 < n } :=
  match args.lookup name with
  | none => .ok default
  | some (.number (.integer n)) =>
    if h : 0 < n.toNat then .ok ⟨n.toNat, h⟩
    else refuse (.parameter name (.number (.integer n)) .positiveInteger)
  | some v => refuse (.parameter name v .positiveInteger)

/-- A number that is accepted is the one that was given. -/
theorem requireNumber_eq_ok {name : Text} {v : Value} {required : List Requirement} {n : Number}
    (h : requireNumber name v required = .ok n) : v = .number n := by
  unfold requireNumber at h
  split at h
  · split at h
    · cases h
    · split at h
      · cases h; rfl
      · cases h
  · cases h

end Arguments

end AntennaArray
