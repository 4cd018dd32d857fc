import NameResolution.Loader
import NameResolution.Table

/-!
# Loaders that answer from tables

A scripted loader gives the answers it was told, and looks at nothing. A name
without an answer is not found, and nothing was probed for it.
-/

namespace NameResolution

/-- What to answer to a lookup in `node_modules`: a file, if any, and the probes it failed. -/
structure ScriptedLookup where
  file : Option Path := none
  failed : List Path := []
deriving Repr, DecidableEq

instance : Inhabited ScriptedLookup := ⟨{}⟩

/-- The answers of scripted loaders, by name. -/
structure LoaderScript where
  modules : Table String (Resolution ModuleTarget) := Table.empty
  nodeModules : Table String ScriptedLookup := Table.empty
  types : Table String (Resolution TypeTarget) := Table.empty

namespace LoaderScript

/-- The module loader that answers from the script. -/
def moduleLoader (s : LoaderScript) : ModuleLoader where
  resolve _ _ name _ := pure ((s.modules.get? name).getD default)
  lookUp _ _ name _ failed _ :=
    let answer := (s.nodeModules.get? name).getD default
    pure (answer.file, failed ++ answer.failed)

/-- The type loader that answers from the script. -/
def typeLoader (s : LoaderScript) : TypeLoader where
  resolve _ _ name _ := pure ((s.types.get? name).getD default)

end LoaderScript

end NameResolution
