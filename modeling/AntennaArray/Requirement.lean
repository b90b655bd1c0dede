import AntennaArray.Scalar

/-!
# Requirements on parameters

What a parameter of an element or a panel has to be, as a test on scalars and as the end of the
sentence "the parameter must be …".
-/

namespace AntennaArray

open Scalar

inductive Requirement where
  | real
  | positiveInteger
  | positive
  | finite
  | nonNegative
  /-- A bearing in radians. -/
  | bearing
  /-- A downtilt in radians. -/
  | downtilt
  /-- An orientation in degrees. -/
  | orientation
  /-- A beamwidth in degrees, below a bound if there is one, which may belong to the range. -/
  | beamwidth (bound : Option Nat) (closed : Bool)
deriving DecidableEq

namespace Requirement

/-- Whether a scalar is as required; that it is a number or an integer at all shows in its type. -/
def holds {α : Type} [Scalar α] (x : α) : Requirement → Bool
  | .real => true
  | .positiveInteger => true
  | .positive => isFinite x && lt zero x
  | .finite => isFinite x
  | .nonNegative => !lt x zero
  | .bearing => isFinite x && le (-pi) x && le x pi
  | .downtilt => isFinite x && le zero x && le x pi
  | .orientation => le (ofInt (-360)) x && le x (ofInt 360)
  | .beamwidth none _ => isFinite x && lt zero x
  | .beamwidth (some bound) closed =>
    lt zero x && if closed then le x (ofInt bound) else lt x (ofInt bound)

/-- The end of the sentence. -/
def text : Requirement → String
  | .real => "a real number"
  | .positiveInteger => "a positive integer"
  | .positive => "positive and finite"
  | .finite => "finite"
  | .nonNegative => ">= 0"
  | .bearing => "in [-pi, pi] radians"
  | .downtilt => "in [0, pi] radians"
  | .orientation => "in [-360, 360] degrees"
  | .beamwidth bound closed =>
    let last := match bound with
      | some n => toString n
      | none => "inf"
    "in (0, " ++ last ++ (if closed then "]" else ")") ++ " degrees"

end Requirement

end AntennaArray
