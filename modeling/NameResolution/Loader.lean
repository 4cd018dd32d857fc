import NameResolution.FileSystem
import NameResolution.Resolution

/-!
# Loaders

A loader is what looks a name up when no cache can answer. A module loader
answers two questions: what a name stands for as seen from a file, and what it
stands for in the `node_modules` of a given directory. Loaders see the file
system and the settings in force, and may write to the trace sink if there is
one.
-/

namespace NameResolution

/-- What a loader can see and use. -/
structure Surroundings where
  files : FileSystem
  /-- Does a trace message go anywhere? -/
  hasTrace : Bool

namespace Surroundings

/-- Sends a message to the trace sink, if there is one. -/
def trace (s : Surroundings) (message : String) : Observed Unit :=
  if s.hasTrace then Observed.note (.traced message) else pure ()

/-- Sends a message to the trace sink if the settings ask for traces. -/
def traceIf (s : Surroundings) (settings : Settings) (message : String) : Observed Unit :=
  if settings.traceResolution then s.trace message else pure ()

end Surroundings

/-- Looks module names up. -/
structure ModuleLoader where
  /-- What a name stands for in a containing file. -/
  resolve (around : Surroundings) (settings : Settings) (name containingFile : String) :
    Observed (Resolution ModuleTarget)
  /-- The file that a name stands for in the `node_modules` of a directory and, unless only one
  level is asked for, of the directories above it; the places probed in vain are added to
  `failed`. -/
  lookUp (around : Surroundings) (settings : Settings) (name : String) (directory : Path)
    (failed : List Path) (oneLevel : Bool) : Observed (Option Path × List Path)

/-- Looks type references up. -/
structure TypeLoader where
  /-- What a name stands for in a containing file. -/
  resolve (around : Surroundings) (settings : Settings) (name containingFile : String) :
    Observed (Resolution TypeTarget)

end NameResolution
