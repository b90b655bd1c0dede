import AntennaArray.Json.Writer
import AntennaArray.Simulation

/-!
# The program

Looks at the paths that a command line names, runs the simulation, shows its journal, and writes its
files: tables as text, records and views as JSON.
-/

open AntennaArray

namespace AntennaArray.Program

/-- A list of doubles as a value. -/
def doubles (xs : List Float) : Value := .list (xs.map fun x => .number (.double x))

def fileText : Content → String
  | .table rows => Table.text rows
  | .record r => Json.write (.object [("theta_rad", doubles r.theta), ("phi_rad", doubles r.phi),
      ("gain_db", doubles r.gain.toList), ("attributes", .object r.attributes)])
  | .view title map marker => Json.write (.object [("title", .text title), ("x", doubles map.x),
      ("y", doubles map.y), ("z", doubles map.z.toList), ("marker", doubles [marker.1, marker.2])])

/-- The paths that a simulation looks at. -/
def mentioned (o : CommandLine.Options) : List Path :=
  let config := match o.config with
    | some (.value path) => [path]
    | _ => []
  (config ++ [o.table] ++ o.record.toList ++ o.view.toList).flatMap Path.stages

def octetsAt (p : Path) : IO (Option (List Nat)) := do
  try return some ((← IO.FS.readBinFile p.text.shown).toList.map UInt8.toNat)
  catch _ => return none

def isFolderAt (p : Path) : IO Bool := do
  try
    let _ ← IO.FS.Handle.mk (p.text.shown ++ "/.") .read
    return true
  catch _ => return false

/-- What stands at some paths. -/
def survey (paths : List Path) : IO Disk := do
  let files ← paths.mapM fun p => return (p, ← octetsAt p)
  let folders ← paths.filterM isFolderAt
  return ⟨fun p => (files.lookup p).join, folders.contains⟩

/-- The paths that the words of a command line name. -/
def pathsOf (words : List Text) : List Path :=
  match CommandLine.read words with
  | .ok o => mentioned o
  | .error _ => []

/-- One line for each option. -/
def usage : String :=
  "\n".intercalate ("usage:" :: CommandLine.Switch.all.map fun s => "  " ++ s.title)

end AntennaArray.Program

/-- Runs a command line. -/
def main (arguments : List String) : IO UInt32 := do
  let words := arguments.map Text.ofString
  let disk ← Program.survey (Program.pathsOf words)
  match Simulation.report disk words with
  | .help =>
    IO.println Program.usage
    return 0
  | .misuse m =>
    IO.eprintln Program.usage
    IO.eprintln (Simulation.programName ++ ": error: " ++ m.message.shown)
    return 2
  | .ended verbose journal interruption =>
    (journal.shown verbose).forM fun line => IO.eprintln line.shown
    journal.files.forM fun (path, content) =>
      IO.FS.writeFile path.text.shown (Program.fileText content)
    match interruption with
    | none => return 0
    | some i =>
      IO.eprintln (i.message?.getD "error").shown
      return 1
