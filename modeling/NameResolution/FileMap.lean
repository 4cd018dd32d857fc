import NameResolution.FileSystem
import NameResolution.Path.Order
import NameResolution.Table

/-!
# File maps

A file system held in memory: paths with the texts of their files. Directories
are not recorded; a directory is whatever lies properly above some file. A file
is found under every spelling of its path, and is shown with the spelling under
which it was first added.
-/

namespace NameResolution

/-- The files of a file map by their components: how each is spelled, and its text. -/
structure FileMap where
  files : Table (List Component) (Path × String) := Table.empty

namespace FileMap

instance : Inhabited FileMap := ⟨{}⟩

/-- Adds a file, or gives a file that is there a new text. -/
def insert (m : FileMap) (p : Path) (text : String) : FileMap :=
  let spelled := ((m.files.get? p.components).map Prod.fst).getD p
  ⟨m.files.insert p.components (spelled, text)⟩

/-- Takes a file out, under any of its spellings. -/
def erase (m : FileMap) (p : Path) : FileMap := ⟨m.files.erase p.components⟩

def paths (m : FileMap) : List Path := m.files.entries.map fun e => e.2.1

def fileExists (m : FileMap) (p : Path) : Bool := m.files.contains p.components

/-- Is a file properly below the path? -/
def directoryExists (m : FileMap) (p : Path) : Bool :=
  m.files.keys.any fun k => p.components.isPrefixOf k && k != p.components

def readText (m : FileMap) (p : Path) : Except FileError String :=
  match m.files.get? p.components with
  | some (_, text) => .ok text
  | none => .error .notFound

/-- The files at or below the path whose spellings end in one of the texts, sorted. -/
def filesBelow (m : FileMap) (p : Path) (endings : List String) : List Path :=
  sortDistinct Path.compare <| m.paths.filter fun q =>
    q.startsWith p && endsInOneOf endings q.spelling

/-- The directory in which a file lies that is more than one step below `base`: the first of
those steps. -/
def firstStep? (base file : List Component) : Option Component :=
  if base.isPrefixOf file then
    match file.drop base.length with
    | first :: _ :: _ => some first
    | _ => none
  else none

/-- The directories in the path, sorted. -/
def subdirectories (m : FileMap) (p : Path) : List Path :=
  sortDistinct Path.compare <| m.files.keys.filterMap fun k =>
    (firstStep? p.components k).map fun c => p.join ⟨c.text⟩

/-- The file system of a file map, seen from the directory `cwd`. -/
def fileSystem (m : FileMap) (casePolicy : CasePolicy) (cwd executing : Path) (newLine : String) :
    FileSystem where
  casePolicy := casePolicy
  newLine := newLine
  currentDirectory := pure cwd
  executingFile := executing
  fileExists := m.fileExists
  directoryExists := m.directoryExists
  readText := m.readText
  filesBelow p endings := .ok (m.filesBelow p endings)
  subdirectories p := .ok (m.subdirectories p)
  resolvePath p := pure (cwd.anchor p)
  realPath p := .ok p.normalise

end FileMap

end NameResolution
