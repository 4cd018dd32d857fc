import NameResolution.FileSystem
import NameResolution.Table

/-!
# Disks

A disk is a tree of directories, files and symbolic links, and one process has
its place in it. Places are named from the root down. There are no access rights:
the process may read and search every directory, read every file, and change what
it likes. The process keeps its directory even when that is deleted: then it stands
at a *spot* outside of the tree, from which only the way up is left.
-/

namespace NameResolution

/-- What stands at a place. -/
inductive Node where
  | directory
  | file (bytes : List UInt8)
  | link (target : List Char)
deriving Repr, DecidableEq

/-- A place in the tree: the names on the way from the root. -/
abbrev Place := List (List Char)

/-- A directory that was come to: its place, and how many of the last directories on the way to
it have been deleted since, itself included. -/
structure Spot where
  place : Place
  gone : Nat := 0
deriving Repr, DecidableEq

namespace Spot

def root : Spot := ⟨[], 0⟩

/-- One step up; from the root, the root. -/
def up (s : Spot) : Spot := ⟨s.place.dropLast, s.gone - 1⟩

/-- The spot after the directory at `removed` was deleted with everything in it. -/
def afterRemoval (removed : Place) (s : Spot) : Spot :=
  if removed.isPrefixOf s.place then
    { s with gone := max s.gone (s.place.length - removed.length + 1) }
  else s

end Spot

/-- A tree of directories, files and links, with the directory of the process that uses it. The
root is always there. -/
structure Disk where
  /-- What stands at the places below the root. -/
  nodes : Table Place Node := Table.empty
  workingDirectory : Spot := Spot.root

namespace Disk

instance : Inhabited Disk := ⟨{}⟩

def node? (d : Disk) (place : Place) : Option Node :=
  if place = [] then some .directory else d.nodes.get? place

/-- The name and the kind of what stands directly in a directory. -/
def childOf? (place : Place) (entry : Place × Node) : Option (List Char × Node) :=
  match entry.1.getLast? with
  | some name => if entry.1.dropLast = place then some (name, entry.2) else none
  | none => none

/-- What stands directly in a directory; nothing in a deleted one. -/
def children (d : Disk) (s : Spot) : List (List Char × Node) :=
  if s.gone = 0 then d.nodes.entries.filterMap (childOf? s.place) else []

end Disk

end NameResolution
