import AntennaArray.Arguments
import AntennaArray.Element.Basic
import AntennaArray.Element.Radiator

/-!
# Elements from descriptions

A description gives a model and some of its parameters by name; the others take their defaults. Each
parameter is a number within its bounds, kept as given; parameters are tested in a fixed order, and
the first that fails is reported.
-/

namespace AntennaArray

namespace Arguments

/-- The beamwidth that an argument gives; infinity stands for no limit. -/
def beamwidth (args : Arguments) (name : Text) (default : Number) : Attempt (Beamwidth Number) :=
  match args.lookup name with
  | some (.number (.double x)) =>
    if x == Binary64.infinite false then .ok .unlimited
    else (number args name default [.beamwidth (some 360) false]).map Beamwidth.ofNumber
  | _ => (number args name default [.beamwidth (some 360) false]).map Beamwidth.ofNumber

end Arguments

namespace Element

open Arguments

/-- The description of an element: its model and its parameters. -/
def description (e : Element Number) : Arguments :=
  ("type", .text e.kind.word) :: e.fields.map fun (name, n) => (Text.ofString name, .number n)

def parameterNames : ElementKind → List String
  | .isotropic => []
  | .cosine => ["horizontal_beamwidth", "vertical_beamwidth", "orientation", "max_gain"]
  | .parabolic => ["horizontal_beamwidth", "vertical_beamwidth", "max_attenuation",
      "vertical_side_lobe_attenuation", "max_directional_gain", "orientation"]
  | .sector => ["vertical_beamwidth", "horizontal_beamwidth", "max_attenuation",
      "vertical_side_lobe_attenuation", "max_directional_gain"]

/-- Refuses a beamwidth so small that the cosine of its quarter rounds to one. -/
def screenExponent (b : Beamwidth Number) : Attempt Unit :=
  if (b.map Number.toDouble).isDegenerate then .error .divisionByZero else .ok ()

def cosineOf (args : Arguments) : Attempt (CosinePattern Number) := do
  let horizontal ← args.beamwidth "horizontal_beamwidth" (.double 60)
  let vertical ← args.beamwidth "vertical_beamwidth" (.double (Binary64.infinite false))
  let orientation ← args.number "orientation" (.double 0) [.finite, .orientation]
  let maxGain ← args.number "max_gain" (.double 0) [.finite]
  screenExponent horizontal
  screenExponent vertical
  return ⟨horizontal, vertical, orientation, maxGain⟩

def parabolicOf (args : Arguments) : Attempt (ParabolicPattern Number) := do
  let horizontal ← args.number "horizontal_beamwidth" (.double 60) [.beamwidth (some 180) true]
  let vertical ← args.number "vertical_beamwidth" (.double 60) [.beamwidth (some 180) true]
  let maxAttenuation ← args.number "max_attenuation" (.double 30) [.finite, .nonNegative]
  let sideLobe ←
    args.number "vertical_side_lobe_attenuation" (.double 30) [.finite, .nonNegative]
  let maxGain ← args.number "max_directional_gain" (.double 8) [.finite]
  let orientation ← args.number "orientation" (.double 0) [.finite, .orientation]
  return ⟨horizontal, vertical, maxAttenuation, sideLobe, maxGain, orientation⟩

def sectorOf (args : Arguments) : Attempt (SectorPattern Number) := do
  let horizontal ← args.number "horizontal_beamwidth" (.double 65) [.beamwidth none false]
  let vertical ← args.number "vertical_beamwidth" (.double 65) [.beamwidth none false]
  let maxAttenuation ← args.number "max_attenuation" (.double 30) [.finite, .nonNegative]
  let sideLobe ←
    args.number "vertical_side_lobe_attenuation" (.double 30) [.finite, .nonNegative]
  let maxGain ← args.number "max_directional_gain" (.double 8) [.finite]
  return ⟨vertical, horizontal, maxAttenuation, sideLobe, maxGain⟩

def construct (kind : ElementKind) (args : Arguments) : Attempt (Element Number) := do
  args.screen (kind.title ++ ".__init__") "self" (parameterNames kind)
  match kind with
  | .isotropic => return .isotropic
  | .cosine => return .cosine (← cosineOf args)
  | .parabolic => return .parabolic (← parabolicOf args)
  | .sector => return .sector (← sectorOf args)

/-- The element that a description names: unknown parameters are a fault of the description. -/
def make (kind : Value) (args : Arguments) : Attempt (Element Number) :=
  if args.any (·.1 == "kind") then .error (.call (.repeated "make_element" "kind"))
  else
    match ElementKind.ofWord? kind.plain with
    | none => refuse (.unknownKind kind)
    | some k =>
      match construct k args with
      | .error (.call c) => refuse (.badParameters k.word c)
      | result => result

end Element

end AntennaArray
