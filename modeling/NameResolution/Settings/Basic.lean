import NameResolution.Path.Normal
import NameResolution.Table

/-!
# Compilation settings

A snapshot of the options that name resolution depends on. Settings are never
edited in place: a host swaps in a whole new snapshot.
-/

namespace NameResolution

/-- The language level scripts are compiled to, oldest first. -/
inductive ScriptTarget where
  | es3
  | es5
  | es2015
  | es2016
  | es2017
  | es2018
  | es2019
  | es2020
  | es2021
  | es2022
  | esNext
deriving Repr, DecidableEq, Ord

/-- How a module name is looked up. -/
inductive LookupStrategy where
  | classic
  | node
  | node16
  | nodeNext
  | bundler
deriving Repr, DecidableEq

structure Settings where
  target : ScriptTarget := .es5
  /-- The strategy that was asked for, if any. -/
  moduleResolution : Option LookupStrategy := none
  baseUrl : Option Path := none
  /-- Path mapping patterns with their substitutions, in order of declaration. -/
  paths : Table String (List String) := Table.empty
  typeRoots : Option (List Path) := none
  types : Option (List String) := none
  traceResolution : Bool := false
  allowJs : Bool := false
  maxNodeModuleJsDepth : Option Nat := none

namespace Settings

instance : Inhabited Settings := ⟨{}⟩

/-- The strategy in force: classic node lookup unless another was asked for. -/
def effectiveModuleResolution (s : Settings) : LookupStrategy := s.moduleResolution.getD .node

/-- The file name of the default library for the target. -/
def defaultLibrary (s : Settings) : String :=
  match s.target with
  | .es3 | .es5 => "lib.d.ts"
  | .es2015 => "lib.es6.d.ts"
  | .es2016 => "lib.es2016.full.d.ts"
  | _ => "lib.es2017.full.d.ts"

/-- Do two optional values agree, when values are compared by `eq`? -/
def agree {α : Type} (eq : α → α → Bool) : Option α → Option α → Bool
  | none, none => true
  | some a, some b => eq a b
  | _, _ => false

/-- Do two lists of paths name the same places in the same order? -/
def samePaths : List Path → List Path → Bool
  | [], [] => true
  | p :: ps, q :: qs => p.same q && samePaths ps qs
  | _, _ => false

/-- Equal settings: paths by their components, the mapping patterns in any order. -/
def same (a b : Settings) : Bool :=
  a.target = b.target
    && a.moduleResolution = b.moduleResolution
    && agree Path.same a.baseUrl b.baseUrl
    && a.paths.size == b.paths.size
    && a.paths.entries.all (fun e => b.paths.get? e.1 == some e.2)
    && agree samePaths a.typeRoots b.typeRoots
    && a.types == b.types
    && a.traceResolution == b.traceResolution
    && a.allowJs == b.allowJs
    && a.maxNodeModuleJsDepth == b.maxNodeModuleJsDepth

end Settings

end NameResolution
