import NameResolution.Loader

/-!
# The fallback to the typings cache

A project may let its missing modules be satisfied by type declarations that
were installed for it automatically. A module that its loader cannot find is then
looked up once more, in the `node_modules` of the typings cache alone; what is
found there counts as external.
-/

namespace NameResolution

/-- What is known about the project a host works for. -/
structure Project where
  name : String
  version : String
  /-- May installed typings satisfy modules that are not found? -/
  autoDiscovery : Bool := false
  /-- The directory of the installed typings, if there is one. -/
  typingsCache : Option Path := none
deriving Repr, DecidableEq

/-- The typings cache to fall back on, if the project allows it. -/
def Project.fallbackCache? (p : Project) : Option Path :=
  if p.autoDiscovery then p.typingsCache else none

namespace ModuleLoader

/-- Asks the loader for a name. -/
def ask (l : ModuleLoader) (around : Surroundings) (settings : Settings)
    (name containingFile : String) : Observed (Resolution ModuleTarget) := do
  Observed.note (.askedModule name containingFile settings.target)
  l.resolve around settings name containingFile

/-- Asks the loader to look a name up in one directory only. -/
def askOneLevel (l : ModuleLoader) (around : Surroundings) (settings : Settings) (name : String)
    (directory : Path) (failed : List Path) : Observed (Option Path × List Path) := do
  Observed.note (.lookedUp name directory true failed.length)
  l.lookUp around settings name directory failed true

/-- The trace message of a second lookup. -/
def fallbackMessage (project : Project) (name : String) (cache : Path) : String :=
  let projectName := project.name
  let location := cache.toString
  s!"Auto discovery for typings is enabled in project '{projectName}'. " ++
    s!"Running extra resolution pass for module '{name}' using cache location '{location}'."

/-- Looks up in the typings cache what the loader did not find, `failed` being the places it
probed. A miss keeps all probes, so that it is provisional. -/
def resolveInCache (l : ModuleLoader) (around : Surroundings) (project : Project)
    (settings : Settings) (name : String) (cache : Path) (failed : List Path) :
    Observed (Resolution ModuleTarget) := do
  around.traceIf settings (fallbackMessage project name cache)
  Observed.log (.searchingTypings project.name name cache)
  let (hit, failed) ← l.askOneLevel around settings name cache failed
  return ⟨hit.map fun file => ⟨file, true⟩, failed⟩

/-- Resolves a name by the loader and, when it finds nothing, by the typings cache. -/
def resolveOrFallBack (l : ModuleLoader) (around : Surroundings) (project : Project)
    (settings : Settings) (name containingFile : String) : Observed (Resolution ModuleTarget) := do
  let primary ← l.ask around settings name containingFile
  if primary.target.isSome then return primary
  match project.fallbackCache? with
  | none => return primary
  | some cache => l.resolveInCache around project settings name cache primary.failed

end ModuleLoader

/-- Asks the loader of type references for a name. -/
def TypeLoader.ask (l : TypeLoader) (around : Surroundings) (settings : Settings)
    (name containingFile : String) : Observed (Resolution TypeTarget) := do
  Observed.note (.askedType name containingFile settings.target)
  l.resolve around settings name containingFile

end NameResolution
