import AntennaArray.Number
import AntennaArray.Scalar
import AntennaArray.Text.Basic

/-!
# Antenna elements

Four models of a single antenna: one without directivity, one whose gain falls off like the power of
a cosine, and two whose gain falls off along parabolas down to a floor, of which the sector antenna
always looks along the horizontal axis. The parameters are in degrees and decibels.
-/

namespace AntennaArray

/-- A beamwidth in degrees; without a limit there is no directivity in that plane. -/
inductive Beamwidth (α : Type) where
  | unlimited
  | degrees (width : α)

structure CosinePattern (α : Type) where
  horizontal : Beamwidth α
  vertical : Beamwidth α
  orientation : α
  maxGain : α

structure ParabolicPattern (α : Type) where
  horizontal : α
  vertical : α
  maxAttenuation : α
  sideLobeAttenuation : α
  maxGain : α
  orientation : α

structure SectorPattern (α : Type) where
  vertical : α
  horizontal : α
  maxAttenuation : α
  sideLobeAttenuation : α
  maxGain : α

/-- The names of the models. -/
inductive ElementKind where
  | isotropic
  | cosine
  | parabolic
  | sector
deriving DecidableEq

/-- An antenna element. -/
inductive Element (α : Type) where
  | isotropic
  | cosine (p : CosinePattern α)
  | parabolic (p : ParabolicPattern α)
  | sector (p : SectorPattern α)

namespace ElementKind

/-- The word for a model in a description. -/
def word : ElementKind → String
  | .isotropic => "isotropic"
  | .cosine => "cosine"
  | .parabolic => "parabolic"
  | .sector => "3gpp"

def title : ElementKind → String
  | .isotropic => "IsotropicAntennaModel"
  | .cosine => "CosineAntennaModel"
  | .parabolic => "ParabolicAntennaModel"
  | .sector => "ThreeGppAntennaModel"

def all : List ElementKind := [.isotropic, .cosine, .parabolic, .sector]

/-- The model with a word, in letters of either case. -/
def ofWord? (word : Text) : Option ElementKind :=
  all.find? fun k => k.word.toList == word.toChars.map Char.toLower

theorem ofWord?_word (k : ElementKind) : ofWord? k.word = some k := by
  cases k <;> decide

end ElementKind

namespace Beamwidth

variable {α β : Type}

/-- The same beamwidth in another type of numbers. -/
def map (f : α → β) : Beamwidth α → Beamwidth β
  | .unlimited => .unlimited
  | .degrees w => .degrees (f w)

/-- The beamwidth that a number stands for; infinity is no limit. -/
def ofNumber : Number → Beamwidth Number
  | .double x => if x.isInf then .unlimited else .degrees (.double x)
  | n => .degrees n

def toNumber : Beamwidth Number → Number
  | .unlimited => .double (Binary64.infinite false)
  | .degrees w => w

end Beamwidth

namespace Element

variable {α β : Type}

def kind : Element α → ElementKind
  | .isotropic => .isotropic
  | .cosine _ => .cosine
  | .parabolic _ => .parabolic
  | .sector _ => .sector

/-- The same element in another type of numbers. -/
def map (f : α → β) : Element α → Element β
  | .isotropic => .isotropic
  | .cosine p => .cosine ⟨p.horizontal.map f, p.vertical.map f, f p.orientation, f p.maxGain⟩
  | .parabolic p => .parabolic ⟨f p.horizontal, f p.vertical, f p.maxAttenuation,
      f p.sideLobeAttenuation, f p.maxGain, f p.orientation⟩
  | .sector p => .sector ⟨f p.vertical, f p.horizontal, f p.maxAttenuation,
      f p.sideLobeAttenuation, f p.maxGain⟩

/-- The parameters of an element with their names, in their order. -/
def fields : Element Number → List (String × Number)
  | .isotropic => []
  | .cosine p => [("horizontal_beamwidth", p.horizontal.toNumber),
      ("vertical_beamwidth", p.vertical.toNumber), ("orientation", p.orientation),
      ("max_gain", p.maxGain)]
  | .parabolic p => [("horizontal_beamwidth", p.horizontal), ("vertical_beamwidth", p.vertical),
      ("max_attenuation", p.maxAttenuation),
      ("vertical_side_lobe_attenuation", p.sideLobeAttenuation),
      ("max_directional_gain", p.maxGain), ("orientation", p.orientation)]
  | .sector p => [("vertical_beamwidth", p.vertical), ("horizontal_beamwidth", p.horizontal),
      ("max_attenuation", p.maxAttenuation),
      ("vertical_side_lobe_attenuation", p.sideLobeAttenuation),
      ("max_directional_gain", p.maxGain)]

/-- The orientation of an element in degrees, if it has one. -/
def orientation? : Element Number → Option Number
  | .isotropic => none
  | .cosine p => some p.orientation
  | .parabolic p => some p.orientation
  | .sector _ => some (.double 0)

/-- Whether two elements are of one model and have equal parameters. -/
def equals (a b : Element Number) : Bool :=
  a.kind == b.kind && (a.fields.zip b.fields).all fun (f, g) => f.2.equals g.2

/-- Names and texts as they stand in the parentheses of a display. -/
def assignments (fields : List (String × String)) : String :=
  ", ".intercalate (fields.map fun (name, text) => name ++ "=" ++ text)

/-- The display of an element: its model and its parameters. -/
def display (e : Element Number) : String :=
  e.kind.title ++ "(" ++ assignments (e.fields.map fun (name, n) => (name, n.text)) ++ ")"

def toDoubles (e : Element Number) : Element Float := e.map Number.toDouble

end Element

end AntennaArray
