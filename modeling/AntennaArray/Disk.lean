import AntennaArray.Fault

/-!
# Paths and the disk

A path is a root and the names on the way from it, without empty names and without the name for the
folder itself. A disk says what stands at a path: a file with its octets, a folder, or nothing. A
path is followed name by name; `Disk.reach` gives the file at its end, or why there can be none.
-/

namespace AntennaArray

/-- A way to a file; without a root it starts at the current folder. -/
structure Path where
  root : String
  names : List Text
deriving DecidableEq

namespace Path

/-- The root that a text starts with: two slashes are a root of their own. -/
def rootOf : Text → String
  | .char '/' :: .char '/' :: .char '/' :: _ => "/"
  | .char '/' :: .char '/' :: _ => "//"
  | .char '/' :: _ => "/"
  | _ => ""

/-- The names between slashes. -/
def split : Text → List Text
  | [] => [[]]
  | p :: rest =>
    match p, split rest with
    | .char '/', names => [] :: names
    | _, name :: names => (p :: name) :: names
    | _, [] => [[p]]

/-- The name for the folder itself. -/
def here : Text := "."

def ofText (text : Text) : Path :=
  ⟨rootOf text, (split text).filter fun name => !name.isEmpty && name != here⟩

/-- A path as text; the current folder is a single dot. -/
def text (p : Path) : Text :=
  let whole := p.root ++ ("/" : Text).intercalate p.names
  if whole.isEmpty then here else whole

/-- The path that is left of a path if its text ends at the first null character. -/
def untilNull (p : Path) : Path :=
  match p.names.dropWhile fun name => !name.contains (.char '\x00') with
  | [] => p
  | name :: _ =>
    { p with names :=
        p.names.takeWhile (fun name => !name.contains (.char '\x00')) ++ [name.untilNull] }

/-- The paths that the first names of a path make, the shortest first; the last one is the path
itself. -/
def stages (p : Path) : List Path :=
  (List.range p.names.length).map fun n => { p with names := p.names.take (n + 1) }

end Path

/-- What stands at each path. -/
structure Disk where
  content : Path → Option (List Nat)
  isFolder : Path → Bool

namespace Disk

/-- The disk with files at some more paths, which are not read. -/
def adding (d : Disk) (ps : List Path) : Disk :=
  { d with content := fun p => if ps.contains p then some [] else d.content p }

/-- The greatest number of octets of a name. -/
def nameLimit : Nat := 255

/-- The least number of octets that no path has. -/
def pathLimit : Nat := 4096

/-- Refuses a path that no disk knows. -/
def screen (p : Path) : Attempt Unit :=
  match Text.Utf8.unencodable? Text.Utf8.standsForOctet 0 p.text with
  | some u => .error (.unencodable u)
  | none =>
    if p.text.contains (.char '\x00') then reject .nullInPath
    else if pathLimit ≤ Text.Utf8.octetCount p.text then .error (.nameTooLong p.text)
    else .ok ()

/-- The file at the end of a path, or nothing in a folder that is there. The first stage that is no
folder decides. -/
def reach (d : Disk) (p : Path) : Attempt (Option (List Nat)) := do
  screen p
  match p.stages.find? (!d.isFolder ·) with
  | none => throw (.isDirectory p.text)
  | some stage =>
    if nameLimit < Text.Utf8.octetCount (stage.names.getLastD []) then throw (.nameTooLong p.text)
    else if stage = p then return d.content p
    else if (d.content stage).isSome then throw (.notDirectory p.text)
    else throw (.noFile p.text)

def read (d : Disk) (p : Path) : Attempt (List Nat) := do
  match ← d.reach p with
  | some octets => return octets
  | none => throw (.noFile p.text)

/-- Whether a file can be written: its folder is there, and no folder stands in its place. -/
def admits (d : Disk) (p : Path) : Attempt Unit := do
  let _ ← d.reach p

/-- The path at which a record can be kept: its text ends at the first null character. A path that
ends without a name, or with the name for the folder itself, leads to a folder at best. -/
def placeForRecord (d : Disk) (p : Path) : Attempt Path := do
  match Text.Utf8.unencodable? Text.Utf8.standsForOctet 0 p.text with
  | some u => throw (.unencodable u)
  | none =>
    let q := p.untilNull
    match q.root, q.names with
    | "", [[]] => throw .emptyPath
    | _, names =>
      if names.getLast? = some [] then
        d.admits { q with names := names.dropLast }
        throw (.isDirectory q.text)
      else
        d.admits q
        if names.getLast? = some Path.here then throw (.isDirectory q.text)
        return q

end Disk

end AntennaArray
