import NameResolution.Settings.Basic
import NameResolution.Settings.Options

/-!
# Settings from a document

`Settings.ofDocument` reads a settings document and gives its options their
meaning. Paths are seen from the directory of the document and put into normal
form; blank values count as absent. Three things are refused, in this order
whatever their order in the text: an unknown target, an unknown module
resolution, and a path mapping without substitutions.
-/

namespace NameResolution

/-- Why a document gives no settings. -/
inductive SettingsError where
  /-- The text is no document of the expected kind. -/
  | document (report : Json.Report)
  | unsupportedTarget (value : String)
  | unsupportedModuleResolution (value : String)
  | noSubstitutions (pattern : String)
deriving Repr, DecidableEq

namespace SettingsError

def message : SettingsError → String
  | .document _ => "failed to parse tsconfig JSON"
  | .unsupportedTarget value => s!"unsupported compilerOptions.target '{value}'"
  | .unsupportedModuleResolution value =>
    s!"unsupported compilerOptions.moduleResolution '{value}'"
  | .noSubstitutions pattern => s!"compilerOptions.paths '{pattern}' has no substitutions"

/-- What a switch with a bad text is told. -/
def flagDetail (text : String) : String :=
  s!"invalid boolean value: '{text}'. Expected true or false"

end SettingsError

namespace Settings

/-- An option word without hyphens, underscores and blanks, in small letters. -/
def plainWord (value : String) : String :=
  String.ofList ((value.toList.filter fun c => c != '-' && c != '_' && !Text.isBlank c).map
    Char.toLower)

def target? (value : String) : Option ScriptTarget :=
  match plainWord value with
  | "es3" => some .es3
  | "es5" => some .es5
  | "es6" | "es2015" => some .es2015
  | "es2016" => some .es2016
  | "es2017" => some .es2017
  | "es2018" => some .es2018
  | "es2019" => some .es2019
  | "es2020" => some .es2020
  | "es2021" => some .es2021
  | "es2022" => some .es2022
  | "esnext" => some .esNext
  | _ => none

def strategy? (value : String) : Option LookupStrategy :=
  match plainWord value with
  | "classic" => some .classic
  | "node" | "node10" => some .node
  | "node16" => some .node16
  | "nodenext" => some .nodeNext
  | "bundler" => some .bundler
  | _ => none

/-- The value without blanks around it, unless nothing is left. -/
def nonBlank? (value : String) : Option String :=
  if Text.trim value = "" then none else some (Text.trim value)

/-- The target asked for; the default when none is. -/
def readTarget : Option String → Except SettingsError ScriptTarget
  | none => .ok .es5
  | some value =>
    match target? value with
    | some t => .ok t
    | none => .error (.unsupportedTarget value)

/-- The strategy asked for, if any; a blank value asks for none. -/
def readStrategy (value : Option String) : Except SettingsError (Option LookupStrategy) :=
  match value.bind nonBlank? with
  | none => .ok none
  | some word =>
    match strategy? word with
    | some s => .ok (some s)
    | none => .error (.unsupportedModuleResolution word)

/-- The path mapping: every pattern needs a substitution. -/
def readPaths (given : Option (List (String × List String))) :
    Except SettingsError (Table String (List String)) :=
  let paths := Table.ofList (given.getD [])
  match paths.entries.find? fun e => e.2.isEmpty with
  | some e => .error (.noSubstitutions e.1)
  | none => .ok paths

/-- A value as a path seen from a directory, in normal form. -/
def anchored (directory : Path) (value : String) : Path := directory.anchor (Path.ofString value)

/-- The settings that options mean in a document of the directory. -/
def ofOptions (directory : Path) (o : Options) : Except SettingsError Settings := do
  let target ← readTarget o.target
  let moduleResolution ← readStrategy o.moduleResolution
  let paths ← readPaths o.paths
  return {
    target := target
    moduleResolution := moduleResolution
    baseUrl := (o.baseUrl.bind nonBlank?).map (anchored directory)
    paths := paths
    typeRoots := o.typeRoots.map fun roots => (roots.filterMap nonBlank?).map (anchored directory)
    types := o.types.map fun names => names.filterMap nonBlank?
    traceResolution := o.traceResolution.getD false
    allowJs := o.allowJs.getD false
    maxNodeModuleJsDepth := o.maxNodeModuleJsDepth }

/-- Reads a document that stands in the directory. -/
def ofDocument (document : String) (directory : Path) : Except SettingsError Settings :=
  let text := Jsonc.strip document.toList
  match Options.ofPlainText text with
  | .error fault => .error (.document (fault.report text))
  | .ok none => .ok {}
  | .ok (some options) => ofOptions directory options

end Settings

end NameResolution
