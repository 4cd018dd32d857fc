import NameResolution.Loader
import NameResolution.Path.Normal

/-!
# Loaders that probe for files

The probing loaders look a name up by trying candidate paths in a fixed order;
the first that is a file is the target, those before it are the failed probes. A
module name that starts with a dot is seen from the containing file's directory,
any other from the `node_modules` there and in every directory above. A type
reference is looked up in the type roots.
-/

namespace NameResolution

/-- The first candidate that is a file, and the candidates tried in vain. -/
def firstFile (isFile : Path → Bool) : List Path → Option Path × List Path
  | [] => (none, [])
  | p :: rest =>
    if isFile p then (some p, [])
    else
      let (hit, failed) := firstFile isFile rest
      (hit, p :: failed)

/-- The resolution of a search for candidates. -/
def Resolution.ofSearch {τ : Type} (target : Path → τ) (search : Option Path × List Path) :
    Resolution τ :=
  ⟨search.1.map target, search.2⟩

namespace Path

/-- A path and those above it, the nearest first, at most `bound` of them above it. -/
def upwards : Nat → Path → List Path
  | 0, p => [p]
  | bound + 1, p =>
    p :: match p.parent? with
      | some q => upwards bound q
      | none => []

/-- A path and those above it, the nearest first. -/
def selfAndAbove (p : Path) : List Path := upwards p.components.length p

/-- The path with a text written behind its last name. -/
def extended (p : Path) (text : String) : Path := ⟨p.spelling ++ text.toList⟩

end Path

namespace Probing

/-- A name that no file can have: empty, or with a wildcard. -/
def isMalformed (name : String) : Bool := name.toList.isEmpty || name.toList.contains '*'

/-- Is the name seen from the containing file's directory? -/
def isRelative (name : String) : Bool := name.toList.head? == some '.'

/-- The directory of a containing file, as seen from `cwd`. -/
def directoryOf (cwd : Path) (containingFile : String) : Path :=
  ((cwd.anchor (Path.ofString containingFile)).parent?).getD (Path.ofString "/")

/-- Where a bare name is looked for in a directory. -/
def inNodeModules (name : String) (directory : Path) : Path :=
  ((directory.join (Path.ofString "node_modules")).join (Path.ofString name)).join
    (Path.ofString "index.d.ts")

/-- Where a name that is not malformed is looked for, seen from a directory. -/
def candidates (name : String) (directory : Path) : List Path :=
  if isRelative name then
    let base := directory.anchor (Path.ofString name)
    [base.extended ".ts", base.extended ".d.ts"]
  else directory.selfAndAbove.map (inNodeModules name)

/-- Looks a module name up; a malformed one without a probe. -/
def resolveModule (around : Surroundings) (settings : Settings) (name containingFile : String) :
    Observed (Resolution ModuleTarget) := do
  around.traceIf settings
    s!"======== Resolving module '{name}' from '{containingFile}'. ========"
  if isMalformed name then return .notFound []
  let cwd ← around.files.currentDirectory
  return .ofSearch (fun file => ⟨file, !isRelative name⟩)
    (firstFile around.files.fileExists (candidates name (directoryOf cwd containingFile)))

/-- Looks a name up in `node_modules`, adding the failed probes to those handed in. -/
def lookUp (around : Surroundings) (name : String) (directory : Path) (failed : List Path)
    (oneLevel : Bool) : Option Path × List Path :=
  let directories := if oneLevel then [directory] else directory.selfAndAbove
  let (hit, probed) := firstFile around.files.fileExists (directories.map (inNodeModules name))
  (hit, failed ++ probed)

/-- The module loader that probes. -/
def moduleLoader : ModuleLoader where
  resolve := resolveModule
  lookUp around _ name directory failed oneLevel :=
    pure (lookUp around name directory failed oneLevel)

/-- Where type references are looked for when the settings name no type roots. -/
def defaultTypeRoots : List Path := [Path.ofString "/proj/node_modules/@types"]

/-- Where a type reference is looked for in a type root. -/
def inTypeRoot (name : String) (typeRoot : Path) : Path :=
  (typeRoot.join (Path.ofString name)).join (Path.ofString "index.d.ts")

/-- The type loader that probes the type roots. -/
def typeLoader : TypeLoader where
  resolve around settings name _ :=
    pure <| .ofSearch (fun file => ⟨some file, true⟩) <| firstFile around.files.fileExists <|
      (settings.typeRoots.getD defaultTypeRoots).map (inTypeRoot name)

end Probing

end NameResolution
