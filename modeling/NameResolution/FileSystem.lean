import NameResolution.Key
import NameResolution.Observation

/-!
# File systems, as questions

What name resolution asks of a file system, and nothing else of it: a record
with one answer for every question. An answer may be an observation besides;
asking for the current directory can be reported, since a process may have lost
its directory.
-/

namespace NameResolution

/-- Why a file system does not answer. -/
inductive FileError where
  | notFound
  | notADirectory
  | isADirectory
  /-- The content is no text. -/
  | invalidData
  /-- The path holds a character that no path may hold. -/
  | invalidInput
  | nameTooLong
  /-- More links on the way than are followed. -/
  | tooManyLinks
  /-- A link back to a directory that is being listed. -/
  | cycle
deriving Repr, DecidableEq

/-- A file system, with the process that asks it: its directory and its program. -/
structure FileSystem where
  casePolicy : CasePolicy
  newLine : String
  currentDirectory : Observed Path
  executingFile : Path
  fileExists : Path → Bool
  directoryExists : Path → Bool
  readText : Path → Except FileError String
  /-- The files at or below a path whose names end in one of the texts; all of them without
  any text. -/
  filesBelow : Path → List String → Except FileError (List Path)
  /-- The directories that stand in a directory. -/
  subdirectories : Path → Except FileError (List Path)
  resolvePath : Path → Observed Path
  realPath : Path → Except FileError Path

/-- Does a name end in one of the texts? Without any text, every name counts. -/
def endsInOneOf (endings : List String) (name : List Char) : Bool :=
  endings.isEmpty || endings.any fun e => e.toList.isSuffixOf name

end NameResolution
