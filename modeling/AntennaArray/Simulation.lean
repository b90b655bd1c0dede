import AntennaArray.Catalog
import AntennaArray.CommandLine.Command
import AntennaArray.Record
import AntennaArray.Table
import AntennaArray.Transmitter
import AntennaArray.View

/-!
# Simulations

A simulation steers an array, sweeps its gain over all directions, and writes the sweep to files. It
keeps a journal of what it does; what fails ends it, and the journal holds what was done before.
-/

namespace AntennaArray

/-- How much a line of a journal matters. -/
inductive Level where
  | debug
  | info
deriving DecidableEq

namespace Level

/-- The word for a level. -/
def word : Level → String
  | .debug => "DEBUG"
  | .info => "INFO"

end Level

/-- What is written to a file. -/
inductive Content where
  | table (rows : List (Float × Float × Float))
  | record (r : SweepRecord)
  | view (title : String) (map : View.GainMap Float) (marker : Float × Float)

/-- What has been said and written. -/
structure Journal where
  lines : List (Level × Text)
  files : List (Path × Content)

namespace Journal

def empty : Journal := ⟨[], []⟩

/-- The journal with one more line. -/
def say (j : Journal) (level : Level) (text : Text) : Journal :=
  { j with lines := j.lines ++ [(level, text)] }

def write (j : Journal) (p : Path) (c : Content) : Journal :=
  { j with files := j.files.filter (·.1 ≠ p) ++ [(p, c)] }

/-- The lines that are shown: those for debugging only on demand, and each up to its first line
end. -/
def shown (j : Journal) (verbose : Bool) : List Text :=
  (j.lines.filter fun line => verbose || line.1 ≠ .debug).map fun (level, text) =>
    level.word ++ " " ++ text.firstLine

end Journal

/-- Why a simulation ends early. -/
inductive Interruption where
  | unknownName (name path : Text) (known : List Text)
  | fault (f : Fault)

/-- A simulation in progress. -/
abbrev Simulation := ExceptT Interruption (StateM Journal)

namespace Simulation

/-- Adds a line to the journal. -/
def say (level : Level) (text : Text) : Simulation Unit := modify (·.say level text)

/-- A result that may be refused. -/
def attempt {α : Type} (a : Attempt α) : Simulation α :=
  match a with
  | .ok x => pure x
  | .error f => throw (.fault f)

/-- Adds a file to the journal. -/
def write (p : Path) (c : Content) : Simulation Unit := modify (·.write p c)

/-! ## The array -/

/-- Notes the exponents of a cosine pattern. -/
def sayElement (e : Element Number) : Simulation Unit := do
  let places := Decimal.fixed
  match e.toDoubles with
  | .cosine p => say .debug ("cosine element: nH=" ++ places 4 p.horizontal.exponent ++ " nV="
      ++ places 4 p.vertical.exponent ++ " orientation=" ++ places 1 p.orientation ++ " deg")
  | _ => pure ()

/-- The catalog in a file. -/
def catalog (disk : Disk) (path : Path) : Simulation Catalog := do
  let value ← attempt (disk.read path >>= Catalog.valueOfOctets path.text)
  match value with
  | .object fields => (Catalog.accepted path.text fields).forM fun (_, d) => sayElement d.element
  | _ => pure ()
  let c ← attempt (Catalog.ofValue path.text value)
  say .info ("Loaded " ++ toString c.length ++ " array config(s) from " ++ path.text)
  return c

/-- What a parameter is given, or a fault about nothing in its place. -/
def given {α : Type} (fault : String → Fault) : CommandLine.Given α → Simulation α
  | .value x => pure x
  | .nothing => throw (.fault (fault (Value.list []).kindWord))

/-- The design that the options ask for. -/
def design (disk : Disk) (o : CommandLine.Options) : Simulation Design := do
  match o.config with
  | some config =>
    let path ← given .noPath config
    let c ← catalog disk path
    let name ← given .noName o.name
    match c.lookup name with
    | some d => return d
    | none => throw (.unknownName name path.text (c.map (·.1)))
  | none =>
    let panel ← attempt (Panel.preset (o.preset.toValue .text))
    let element ← attempt (Element.make (o.element.toValue .text) [])
    sayElement element
    return ⟨panel, element⟩

/-! ## The sweep -/

/-- The smallest number of azimuths. -/
def fewestAzimuths : Nat := 4

/-- The number of azimuths for a resolution. -/
def azimuthCount (resolution : Int) : Nat := max fewestAzimuths resolution.toNat

/-- Refuses a number of azimuths that is too great for a sweep. -/
def screenAzimuths (count : Nat) : Attempt Unit := do
  Room.screenRow count
  Room.screen [count, count / 2 + 1]

section

open Scalar

variable {α : Type} [Scalar α]

/-- Azimuths at equal distances, from the negative half turn on. -/
def azimuths (count : Nat) : List α :=
  (List.range count).map fun (i : Nat) => ofInt i * (ofInt 2 * pi / ofInt count) - pi

/-- Inclinations at equal distances from pole to pole; the last one is exactly the half turn. -/
def inclinations (steps : Nat) : List α :=
  (List.range steps).map (fun (i : Nat) => ofInt i * (pi / ofInt steps)) ++ [pi]

end

/-- A direction in both frames, with the angle between the polarizations and the gain. -/
def fieldText (a : PhasedArray Float) (d : Direction Float) : String :=
  let own := a.rotation.toLocal d
  let gain : Float := a.radiator.gain own
  d.display ++ " -> " ++ own.display ++ ", psi="
    ++ Decimal.fixed 4 (a.rotation.polarizationAngle d) ++ " rad, G=" ++ Decimal.fixed 3 gain
    ++ " dB"

/-- A sweep of the steered array. -/
structure Sweep where
  inclinations : List Float
  azimuths : List Float
  gain : Tensor Float
  peak : Float

/-- Steers the array and sweeps its gain. -/
def sweep (d : Design) (steer : Direction Float) (resolution : CommandLine.Given Int) :
    Simulation Sweep := do
  let idle ← attempt (Transmitter.build (.panel d.panel) d.element)
  let steered ← attempt (idle.set (.direction steer))
  let weights ← attempt steered.get
  let a := steered.array
  say .debug ("beamforming vector updated (" ++ toString weights.length ++ " elements)")
  say .debug (fieldText a steer)
  let gain : Float ← attempt (Gain.composite a steer (some weights))
  say .info (Transmitter.display d.panel d.element ++ " steered to " ++ steer.display ++ ": gain "
    ++ Decimal.fixed 2 gain ++ " dB")
  let resolution ← given .notAnInteger resolution
  let count := azimuthCount resolution
  attempt (screenAzimuths count)
  let (θ, φ) := (inclinations (count / 2), azimuths count)
  let map ← attempt (a.sweep weights θ φ)
  let (direction, peak) ← attempt (mapPeak θ φ map)
  say .info ("Pattern peak " ++ Decimal.fixed 2 peak ++ " dB at " ++ direction.display)
  return ⟨θ, φ, map, peak⟩

/-! ## The files -/

/-- The disk with what has been written already. -/
def written (disk : Disk) : Simulation Disk := do
  return disk.adding ((← get).files.map (·.1))

def writeTable (disk : Disk) (path : Path) (s : Sweep) : Simulation Unit := do
  let rows ← attempt (Table.rows s.inclinations s.azimuths s.gain)
  attempt ((← written disk).admits path)
  write path (.table rows)
  say .info ("Saved " ++ toString rows.length ++ " pattern samples to " ++ path.text)

/-- Writes the record of a sweep with the angles of its direction in degrees. -/
def writeRecord (disk : Disk) (path : Path) (s : Sweep) (theta phi : Float) : Simulation Unit := do
  let r ← attempt (SweepRecord.save s.inclinations s.azimuths s.gain
    [("steer_theta_deg", .number (.double theta)), ("steer_phi_deg", .number (.double phi))])
  let place ← attempt (((← written disk).placeForRecord path).mapError .atStore)
  write place (.record r)
  say .info ("Saved pattern (" ++ toString s.azimuths.length ++ "x"
    ++ toString s.inclinations.length ++ ") to " ++ path.text)

/-- How far below the peak a view reaches, in decibels. -/
def viewDepth : Float := 40

def writeView (disk : Disk) (path : Path) (title : String) (s : Sweep)
    (steer : Direction Float) : Simulation Unit := do
  let map ← attempt
    (View.gainMap Binary64.nan s.inclinations s.azimuths s.gain (some (s.peak - viewDepth)))
  attempt ((← written disk).admits path)
  write path (.view title map (View.marker steer))
  say .info ("Saved heatmap to " ++ path.text)

/-! ## The whole -/

def programName : String := "run_simulation.py"

/-- The simulation that the options ask for; the words of the command line are noted first. -/
def run (disk : Disk) (words : List Text) (o : CommandLine.Options) : Simulation Unit := do
  say .info ((" " : Text).intercalate ("python" :: Text.ofString programName :: words))
  let d ← design disk o
  let theta ← given (fun _ => .notSingle) o.steerTheta
  let phi ← given (fun _ => .notSingle) o.steerPhi
  let steer := Direction.ofDegrees theta phi
  let s ← sweep d steer o.resolution
  writeTable disk o.table s
  o.record.forM fun path => writeRecord disk path s theta phi
  o.view.forM fun path =>
    writeView disk path (Transmitter.display d.panel d.element) s steer

/-- How a command line ends. -/
inductive Report where
  | help
  | misuse (m : CommandLine.Misuse)
  | ended (verbose : Bool) (journal : Journal) (interruption : Option Interruption)

/-- The report of a command line. -/
def report (disk : Disk) (words : List Text) : Report :=
  match CommandLine.read words with
  | .error .help => .help
  | .error (.misuse m) => .misuse m
  | .ok o =>
    match StateT.run (ExceptT.run (run disk words o)) Journal.empty with
    | (.ok _, j) => .ended o.verbose j none
    | (.error i, j) => .ended o.verbose j (some i)

end Simulation

namespace Interruption

/-- The sentence for an interruption, if it has one. -/
def message? : Interruption → Option Text
  | .unknownName name path known => some ("config " ++ Text.quoted name ++ " not found in " ++ path
      ++ " (available: " ++ (", " : Text).intercalate known ++ ")")
  | .fault f => f.message?

end Interruption

end AntennaArray
