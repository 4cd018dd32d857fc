import NameResolution.Text.Blank

/-!
# Log configuration

Where a process wants its log and in which form is read from three environment
variables. A process has one subscriber: the first to be installed stays.
-/

namespace NameResolution

inductive LogFormat where
  | text
  /-- Indented, one level per span. -/
  | tree
  /-- One object per event. -/
  | json
deriving Repr, DecidableEq

/-- Which events are wanted, and how they are written. -/
structure LogConfig where
  directives : String
  format : LogFormat
deriving Repr, DecidableEq

/-- Reads a format: blanks around it and letter case do not matter, any other word means text. -/
def LogFormat.read (value : String) : LogFormat :=
  match Text.lowerAscii (Text.trim value) with
  | "tree" => .tree
  | "json" => .json
  | _ => .text

namespace LogConfig

/-- The configuration of an environment; `TSZ_LOG` goes before `RUST_LOG`, one of them is needed. -/
def ofEnvironment (setting? : String → Option String) : Option LogConfig :=
  match (setting? "TSZ_LOG").or (setting? "RUST_LOG") with
  | none => none
  | some directives =>
    some ⟨directives, ((setting? "TSZ_LOG_FORMAT").map LogFormat.read).getD .text⟩

end LogConfig

/-- The subscriber of a process, if one is installed. -/
structure Subscriber where
  installed : Option LogConfig := none
deriving Repr, DecidableEq

namespace Subscriber

/-- Installs a subscriber unless there is one; says whether it did. -/
def install (s : Subscriber) (config : LogConfig) : Bool × Subscriber :=
  match s.installed with
  | none => (true, ⟨some config⟩)
  | some _ => (false, s)

/-- Installs a subscriber if the environment asks for one; safe to repeat. -/
def init (s : Subscriber) (config : Option LogConfig) : Subscriber :=
  match config with
  | none => s
  | some c => (s.install c).2

end Subscriber

end NameResolution
