import NameResolution.Cache
import NameResolution.Loader.Fallback
import NameResolution.Path.Normal

/-!
# The host

The host answers what names stand for as seen from files. It owns one cache for
modules and one for type references, and the settings in force; everything else
it asks of its collaborators. Removing a file drops what the file's names stood
for, replacing the settings drops everything. While it records, the host notes
the files whose module resolutions changed.
-/

namespace NameResolution

/-- What a host works with and does not own. -/
structure Collaborators where
  files : FileSystem
  project : Project
  moduleLoader : ModuleLoader
  typeLoader : TypeLoader
  /-- Does a trace message go anywhere? -/
  hasTrace : Bool

namespace Collaborators

def surroundings (c : Collaborators) : Surroundings := ⟨c.files, c.hasTrace⟩

/-- The canonical key of a file, as seen from the current directory. -/
def keyOf (c : Collaborators) (file : String) : Observed CanonicalKey := do
  return CanonicalKey.of c.files.casePolicy (← c.files.currentDirectory) file.toList

end Collaborators

structure Host where
  settings : Settings
  modules : Cache ModuleTarget := { label := "module" }
  types : Cache TypeTarget := { label := "type reference directive" }
  /-- The keys recorded so far, the latest last, while the host records. -/
  recording : Option (List CanonicalKey) := none

namespace Host

/-- A host with these settings that has resolved nothing yet. -/
def new (settings : Settings) : Host := { settings := settings }

/-- Resolves a module name without looking at any cache. -/
def resolveAfresh (h : Host) (c : Collaborators) (name file : String) :
    Observed (Resolution ModuleTarget) :=
  c.moduleLoader.resolveOrFallBack c.surroundings c.project h.settings name file

/-- Resolves the module names that a file refers to: one slot per name, in the order of the
names. -/
def resolveModules (h : Host) (c : Collaborators) (names : List String) (file : String) :
    Observed (List (Option ModuleTarget)) × Host :=
  let key := c.keyOf file
  let load : Loader Unit ModuleTarget := fun name state => (h.resolveAfresh c name file, state)
  let (batch, modules, _) := h.modules.resolveNames key.value names load ()
  let recording :=
    if batch.value.changed then h.recording.map (· ++ [key.value]) else h.recording
  (⟨batch.value.targets, key.seen ++ batch.seen⟩,
    { h with modules := modules, recording := recording })

/-- Resolves the type references of a file: one slot per name, in the order of the names. -/
def resolveTypes (h : Host) (c : Collaborators) (names : List String) (file : String) :
    Observed (List (Option TypeTarget)) × Host :=
  let key := c.keyOf file
  let load : Loader Unit TypeTarget := fun name state =>
    (c.typeLoader.ask c.surroundings h.settings name file, state)
  let (batch, types, _) := h.types.resolveNames key.value names load ()
  (⟨batch.value.targets, key.seen ++ batch.seen⟩, { h with types := types })

/-- Starts to record, with nothing recorded. -/
def startRecording (h : Host) : Host := { h with recording := some [] }

/-- Stops recording; gives the keys recorded since the start. -/
def finishRecording (h : Host) : List CanonicalKey × Host :=
  (h.recording.getD [], { h with recording := none })

/-- Forgets what the names in a file stood for. -/
def removeFile (h : Host) (c : Collaborators) (file : String) : Observed Unit × Host :=
  let key := c.keyOf file
  let (modules, restModules) := h.modules.remove key.value
  let (types, restTypes) := h.types.remove key.value
  (⟨(), key.seen ++ .logged (.fileRemoved key.value) :: (modules.seen ++ types.seen)⟩,
    { h with modules := restModules, types := restTypes })

/-- Replaces the settings and forgets what any name stood for. -/
def replaceSettings (h : Host) (settings : Settings) : Observed Unit × Host :=
  let (modules, noModules) := h.modules.clear
  let (types, noTypes) := h.types.clear
  (⟨(), .logged .settingsReplaced :: (modules.seen ++ types.seen)⟩,
    { h with settings := settings, modules := noModules, types := noTypes })

/-- Is anything known about the names in a file? -/
def hasCached (h : Host) (c : Collaborators) (file : String) : Observed Bool := do
  let key ← c.keyOf file
  return h.modules.contains key || h.types.contains key

end Host

/-- The default library for settings: it stands beside the running program. -/
def defaultLibraryPath (files : FileSystem) (settings : Settings) : Path :=
  ((files.executingFile.normalise.parent?).getD ⟨[]⟩).join (Path.ofString settings.defaultLibrary)

end NameResolution
