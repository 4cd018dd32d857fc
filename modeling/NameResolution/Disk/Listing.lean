import NameResolution.Disk.Walk
import NameResolution.Path.Order

/-!
# Listing directories

`subdirectories` lists the directories that stand in a directory; a link is not
one of them, wherever it leads. `filesBelow` lists files at any depth, in the
order of their names at every level, and does follow links; a link back to a
directory that is being listed is an error, as is a link that leads nowhere.
-/

namespace NameResolution

namespace Disk

def compareNames (a b : List Char × Node) : Ordering :=
  Ord.compare (a.1.map Char.toNat) (b.1.map Char.toNat)

def sortedChildren (d : Disk) (s : Spot) : List (List Char × Node) :=
  sortDistinct compareNames (d.children s)

/-- The directories that stand in the directory of a path, sorted. -/
def subdirectories (d : Disk) (p : Path) : Except FileError (List Path) :=
  match d.reach p with
  | .error e => .error e
  | .ok (spot, .directory) =>
    .ok (sortDistinct Path.compare <| (d.children spot).filterMap fun (name, node) =>
      match node with
      | .directory => some (p.join ⟨name⟩)
      | _ => none)
  | .ok _ => .error .notADirectory

/-- What a listing shows under a path: a link counts as what it leads to, unless that is a
directory in `opened`, the directories that are being listed. -/
def shown (d : Disk) (opened : List Spot) (p : Path) : Except FileError (Spot × Node) :=
  match d.reachLink p with
  | .ok (_, .link _) =>
    match d.reach p with
    | .ok (spot, .directory) =>
      if spot ∈ opened then .error .cycle else .ok (spot, .directory)
    | outcome => outcome
  | outcome => outcome

/-- The files at or below a path, where `opened` holds the directories that are being listed. -/
def filesFrom (d : Disk) (endings : List String) :
    Nat → List Spot → Path → List Char → Except FileError (List Path)
  | 0, _, _, _ => .error .tooManyLinks
  | depth + 1, opened, p, name =>
    match d.shown opened p with
    | .error e => .error e
    | .ok (_, .file _) => .ok (if endsInOneOf endings name then [p] else [])
    | .ok (_, .link _) => .ok []
    | .ok (spot, .directory) =>
      (d.sortedChildren spot).foldlM (fun found (name, _) => do
        return found ++ (← d.filesFrom endings depth (spot :: opened) (p.join ⟨name⟩) name)) []

/-- The number of levels a listing can have: between two links no more than there are
directories, and no path goes through more links than are followed. -/
def listingDepth (d : Disk) : Nat := (linkLimit + 2) * (d.nodes.size + 2)

/-- The files at or below a path whose names end in one of the texts. -/
def filesBelow (d : Disk) (p : Path) (endings : List String) : Except FileError (List Path) :=
  d.filesFrom endings d.listingDepth [] p (p.fileName?.getD p.spelling)

end Disk

end NameResolution
