import AntennaArray.Fault
import AntennaArray.Tensor

/-!
# Room for tables

A table takes eight octets for each number. `Room.screen` refuses a table whose octets cannot be
counted or for which there is no room, `Room.screenRow` a row that counts from zero.
-/

namespace AntennaArray.Room

-- powers are repeated products, whichever other powers are known
attribute [local instance (high)] instPowNat

/-- The octets of a number. -/
def entrySize : Nat := 8

/-- The least number that is beyond every count. -/
def countLimit : Nat := 2 ^ (63 : Nat)

/-- The octets for which there is room. The number is one of the environment: a machine with 32 GiB
of memory. -/
def capacity : Nat := 2 ^ (35 : Nat)

/-- Refuses a table for which there is no room. -/
def screen (shape : List Nat) : Attempt Unit :=
  let octets := entrySize * volume shape
  if countLimit ≤ octets then reject .unaddressable
  else if capacity < octets then .error .noRoom
  else .ok ()

/-- Refuses a row of the integers below a number for which there is no room; the number is rounded
to a double first. -/
def screenRow (count : Nat) : Attempt Unit :=
  let length := Binary64.ofInt count
  if length.isFinite && (Binary64.truncate length).toNat ≤ countLimit then
    screen [(Binary64.truncate length).toNat]
  else reject .uncountable

end AntennaArray.Room
