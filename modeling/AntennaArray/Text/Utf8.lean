import AntennaArray.Text.Quoted

/-!
# Text and octets

`Utf8.decode` reads characters of one to four octets in their shortest form. An octet that fits
nowhere is reported with its position: as a start, as a continuation, or for lack of one. The other
way, every character has its octets; a surrogate has none and is reported.
-/

namespace AntennaArray.Text.Utf8

/-- What is wrong with an octet sequence. -/
inductive Reason where
  | badStart
  | badContinuation
  | unexpectedEnd
deriving DecidableEq

def Reason.message : Reason → String
  | .badStart => "invalid start byte"
  | .badContinuation => "invalid continuation byte"
  | .unexpectedEnd => "unexpected end of data"

/-- The octets from `position` on, as many as `octets`, are not a character. -/
structure Defect where
  position : Nat
  octets : List Nat
  reason : Reason
deriving DecidableEq

/-- Where the octets stand, which value a single one has, and what is wrong. -/
def Defect.message (d : Defect) : String :=
  let place :=
    match d.octets with
    | [octet] => "byte 0x" ++ String.ofList (hexDigits 2 octet) ++ " in position "
        ++ toString d.position
    | octets => "bytes in position " ++ toString d.position ++ "-"
        ++ toString (d.position + octets.length - 1)
  "'utf-8' codec can't decode " ++ place ++ ": " ++ d.reason.message

/-- After a first octet: the value so far, the number of continuations owed, and the range of the
next of them. -/
structure Pending where
  value : Nat
  owed : Nat
  low : Nat
  high : Nat

/-- What a first octet opens: a character of its own owes nothing. -/
def opening? (octet : Nat) : Option Pending :=
  if octet < 0x80 then some ⟨octet, 0, 0, 0⟩
  else if octet < 0xC2 then none
  else if octet < 0xE0 then some ⟨octet - 0xC0, 1, 0x80, 0xBF⟩
  else if octet < 0xF0 then
    some ⟨octet - 0xE0, 2, if octet = 0xE0 then 0xA0 else 0x80, if octet = 0xED then 0x9F else 0xBF⟩
  else if octet < 0xF5 then
    some ⟨octet - 0xF0, 3, if octet = 0xF0 then 0x90 else 0x80, if octet = 0xF4 then 0x8F else 0xBF⟩
  else none

/-- Reads on. `seen` holds the octets of the open character, latest first; `position` is where the
next octet stands. -/
def run (position : Nat) (pending : Pending) (seen : List Nat) :
    List Nat → Except Defect (List Char)
  | [] =>
    if seen.isEmpty then .ok []
    else .error ⟨position - seen.length, seen.reverse, .unexpectedEnd⟩
  | octet :: rest =>
    if seen.isEmpty then
      match opening? octet with
      | none => .error ⟨position, [octet], .badStart⟩
      | some p =>
        if p.owed = 0 then (run (position + 1) p [] rest).map (Char.ofNat p.value :: ·)
        else run (position + 1) p [octet] rest
    else if pending.low ≤ octet ∧ octet ≤ pending.high then
      let value := pending.value * 64 + (octet - 0x80)
      if pending.owed = 1 then (run (position + 1) pending [] rest).map (Char.ofNat value :: ·)
      else run (position + 1) ⟨value, pending.owed - 1, 0x80, 0xBF⟩ (octet :: seen) rest
    else .error ⟨position - seen.length, seen.reverse, .badContinuation⟩

def decode (octets : List Nat) : Except Defect (List Char) := run 0 ⟨0, 0, 0, 0⟩ [] octets

/-! ## Texts without octets -/

/-- Surrogates one after another, from `position` on, which have no octets. -/
structure Unencodable where
  position : Nat
  surrogates : List (Fin 0x800)
deriving DecidableEq

/-- Where the surrogates stand, and which one it is if it is alone. -/
def Unencodable.message (u : Unencodable) : String :=
  let place :=
    match u.surrogates with
    | [offset] => "character " ++ quoted [.surrogate offset] ++ " in position "
        ++ toString u.position
    | surrogates => "characters in position " ++ toString u.position ++ "-"
        ++ toString (u.position + surrogates.length - 1)
  "'utf-8' codec can't encode " ++ place ++ ": surrogates not allowed"

/-- The surrogates at the front of a text. -/
def leadingSurrogates : Text → List (Fin 0x800)
  | .surrogate offset :: rest => offset :: leadingSurrogates rest
  | _ => []

/-- Whether a surrogate stands for an octet outside ASCII. -/
def standsForOctet (offset : Fin 0x800) : Bool := 0x480 ≤ offset.val && offset.val < 0x500

/-- The first surrogates of a text at `position` that have no octets; some may stand for one. -/
def unencodable? (standsForOctet : Fin 0x800 → Bool) (position : Nat) : Text → Option Unencodable
  | [] => none
  | .char _ :: rest => unencodable? standsForOctet (position + 1) rest
  | .surrogate offset :: rest =>
    if standsForOctet offset then unencodable? standsForOctet (position + 1) rest
    else some ⟨position, offset :: leadingSurrogates rest⟩

/-- The number of octets of a text, where each surrogate stands for one. -/
def octetCount : Text → Nat
  | [] => 0
  | .char c :: rest => c.utf8Size + octetCount rest
  | .surrogate _ :: rest => 1 + octetCount rest

end AntennaArray.Text.Utf8
