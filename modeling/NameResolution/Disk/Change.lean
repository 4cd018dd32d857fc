import NameResolution.Disk.Walk

/-!
# Changing a disk

Changes that cannot be made leave the disk as it is. What is deleted takes
everything below it along; a process whose directory is deleted stays at its
spot.
-/

namespace NameResolution

namespace Disk

def put (d : Disk) (p : Place) (n : Node) : Disk := { d with nodes := d.nodes.insert p n }

/-- Takes out a place with everything below it. -/
def prune (d : Disk) (p : Place) : Disk :=
  { nodes := d.nodes.keep fun q => !p.isPrefixOf q
    workingDirectory := d.workingDirectory.afterRemoval p }

/-- Makes one directory in a directory that is there. -/
def makeDirectory (d : Disk) (p : Path) : Disk :=
  match d.arrive false p with
  | .ok (.vacant spot name) => d.put (spot.place ++ [name]) .directory
  | _ => d

/-- The spellings of a path's first components, of the first two, and so on. -/
def stages (p : Path) : List Path :=
  (List.range p.components.length).map fun n => Path.ofComponents (p.components.take (n + 1))

/-- Makes a directory and those above it, as far as they are not there. -/
def makeDirectories (d : Disk) (p : Path) : Disk := (stages p).foldl makeDirectory d

/-- Gives a file its bytes; the file and the directories above it are made if needed. -/
def write (d : Disk) (p : Path) (bytes : List UInt8) : Disk :=
  let d := match p.parent? with
    | some q => d.makeDirectories q
    | none => d
  match d.arrive true p with
  | .ok (.found spot (.file _)) => d.put spot.place (.file bytes)
  | .ok (.vacant spot name) => d.put (spot.place ++ [name]) (.file bytes)
  | _ => d

def removeFile (d : Disk) (p : Path) : Disk :=
  match d.reachLink p with
  | .ok (_, .directory) | .error _ => d
  | .ok (spot, _) => { d with nodes := d.nodes.erase spot.place }

/-- Deletes a directory with everything in it, or a link. -/
def removeDirectory (d : Disk) (p : Path) : Disk :=
  match d.reachLink p with
  | .ok (spot, .directory) =>
    if spot.gone = 0 ∧ spot.place ≠ [] then d.prune spot.place else d
  | .ok (spot, .link _) => { d with nodes := d.nodes.erase spot.place }
  | _ => d

/-- Makes a link with the target's text as it is. -/
def makeLink (d : Disk) (p : Path) (target : List Char) : Disk :=
  match d.arrive false p with
  | .ok (.vacant spot name) =>
    if target = [] ∨ '\x00' ∈ target ∨ pathLimit ≤ byteLength target then d
    else d.put (spot.place ++ [name]) (.link target)
  | _ => d

def changeDirectory (d : Disk) (p : Path) : Disk :=
  match d.reach p with
  | .ok (spot, .directory) => { d with workingDirectory := spot }
  | _ => d

end Disk

end NameResolution
