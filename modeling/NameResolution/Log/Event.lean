import NameResolution.Key

/-!
# Log events

What the library reports about its own work, as values. An event says what
happened; `LogEvent.record` gives the level, the message and the fields it is
written with.
-/

namespace NameResolution

/-- Something worth reporting that happened while a question was answered. -/
inductive LogEvent where
  /-- A batch of names is resolved for a file; what follows belongs to it. -/
  | resolvingNames (cache : String) (file : CanonicalKey) (names : Nat)
  /-- The file's previous entry serves the name. -/
  | reusing (name : String)
  /-- The previous entry holds a miss that may have been undone since. -/
  | retrying (name : String)
  /-- A file's entry was dropped. -/
  | dropped (cache : String) (file : CanonicalKey)
  /-- All entries are about to be dropped. -/
  | clearing (cache : String) (files : Nat)
  | fileRemoved (file : CanonicalKey)
  | settingsReplaced
  /-- A miss is looked up once more, in the global typings cache. -/
  | searchingTypings (project moduleName : String) (cache : Path)
  /-- The process's directory is gone. -/
  | directoryUnavailable
deriving Repr, DecidableEq

inductive LogLevel where
  | trace
  | debug
  | info
  | warn
  | error
deriving Repr, DecidableEq

/-- The value of a field: a text, or a count. -/
inductive LogField where
  | text (s : String)
  | count (n : Nat)
deriving Repr, DecidableEq

structure LogRecord where
  level : LogLevel
  /-- Does the record open a span that later records belong to? -/
  opensSpan : Bool
  message : String
  fields : List (String × LogField)
deriving Repr, DecidableEq

/-- The level, message and fields an event is written with. -/
def LogEvent.record : LogEvent → LogRecord
  | .resolvingNames cache file names =>
    ⟨.debug, true, "resolve_names",
      [("kind", .text cache), ("file", .text file.toString), ("names", .count names)]⟩
  | .reusing name => ⟨.trace, false, "reusing cached resolution", [("name", .text name)]⟩
  | .retrying name =>
    ⟨.debug, false, "retrying resolution with failed lookups", [("name", .text name)]⟩
  | .dropped cache file =>
    ⟨.debug, false, "dropped per-file resolutions",
      [("kind", .text cache), ("file", .text file.toString)]⟩
  | .clearing cache files =>
    ⟨.debug, false, "clearing resolution cache", [("kind", .text cache), ("files", .count files)]⟩
  | .fileRemoved file =>
    ⟨.debug, false, "file removed from project", [("file", .text file.toString)]⟩
  | .settingsReplaced => ⟨.debug, false, "compilation settings replaced", []⟩
  | .searchingTypings project moduleName cache =>
    ⟨.debug, false, "retrying module resolution in global typings cache",
      [("project", .text project), ("module_name", .text moduleName),
       ("cache", .text cache.toString)]⟩
  | .directoryUnavailable =>
    ⟨.warn, false, "current directory unavailable, keying files from '/'",
      [("error", .text "No such file or directory (os error 2)")]⟩

end NameResolution
