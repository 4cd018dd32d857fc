import NameResolution.Json.Read
import NameResolution.Jsonc
import NameResolution.Text.Blank

/-!
# Options as a document gives them

The part of a settings document that matters here: the member
`compilerOptions`, and in it nine options. They are read in one pass; whatever
comes first in the text and cannot be read decides. What an option's value
means is settled afterwards.
-/

namespace NameResolution

open Json (Fault Tree)

/-- The options that are read, in the order in which an array would give them. -/
inductive OptionField where
  | target
  | moduleResolution
  | baseUrl
  | paths
  | typeRoots
  | types
  | traceResolution
  | allowJs
  | maxNodeModuleJsDepth
deriving Repr, DecidableEq

namespace OptionField

def all : List OptionField :=
  [.target, .moduleResolution, .baseUrl, .paths, .typeRoots, .types, .traceResolution, .allowJs,
   .maxNodeModuleJsDepth]

/-- The option's name in a document. -/
def key : OptionField → String
  | .target => "target"
  | .moduleResolution => "moduleResolution"
  | .baseUrl => "baseUrl"
  | .paths => "paths"
  | .typeRoots => "typeRoots"
  | .types => "types"
  | .traceResolution => "traceResolution"
  | .allowJs => "allowJs"
  | .maxNodeModuleJsDepth => "maxNodeModuleJsDepth"

/-- The option of a name. -/
def ofKey? (name : String) : Option OptionField := all.find? fun f => f.key == name

end OptionField

/-- The values of the options, as they are written. -/
structure Options where
  target : Option String := none
  moduleResolution : Option String := none
  baseUrl : Option String := none
  paths : Option (List (String × List String)) := none
  typeRoots : Option (List String) := none
  types : Option (List String) := none
  traceResolution : Option Bool := none
  allowJs : Option Bool := none
  maxNodeModuleJsDepth : Option Nat := none
deriving Repr, DecidableEq

namespace Options

instance : Inhabited Options := ⟨{}⟩

/-- How deep arrays and objects may nest, from the outermost on. -/
def depthLimit : Nat := 128

/-- A switch given as a text: `true` or `false`, blanks around it and letter case left aside. -/
def flagOfText (text : String) : Except Fault Bool :=
  match Text.lowerAscii (Text.trim text) with
  | "true" => .ok true
  | "false" => .ok false
  | _ => .error (.badFlag text)

/-- Reads a switch. Its value is read whole, whatever its kind, before the kind is looked at; it
stands two levels deep. -/
def readFlag (t : Tree) : Except Fault Bool := do
  t.readAny (depthLimit - 2)
  match t with
  | .word (.ok .yes) => .ok true
  | .word (.ok .no) => .ok false
  | .quoted (.ok text) _ => flagOfText (String.ofList text)
  | _ => .error .mistyped

/-- Reads one option. `null` says that an option is not given. -/
def readField (field : OptionField) (t : Tree) (o : Options) : Except Fault Options :=
  match field with
  | .target => do return { o with target := ← t.readOptional Tree.readString }
  | .moduleResolution => do return { o with moduleResolution := ← t.readOptional Tree.readString }
  | .baseUrl => do return { o with baseUrl := ← t.readOptional Tree.readString }
  | .paths => do
    return { o with paths := ← t.readOptional (Tree.readMap (Tree.readList Tree.readString)) }
  | .typeRoots => do
    return { o with typeRoots := ← t.readOptional (Tree.readList Tree.readString) }
  | .types => do return { o with types := ← t.readOptional (Tree.readList Tree.readString) }
  | .traceResolution => do return { o with traceResolution := ← t.readOptional readFlag }
  | .allowJs => do return { o with allowJs := ← t.readOptional readFlag }
  | .maxNodeModuleJsDepth => do
    return { o with maxNodeModuleJsDepth := ← t.readOptional Tree.readCount }

/-- Reads the options of a document's `compilerOptions`. -/
def readOptions (t : Tree) : Except Fault Options :=
  t.readRecord OptionField.all OptionField.ofKey? readField {}

/-- The one member of a document that is read. -/
def sectionOf? (name : String) : Option Unit :=
  if name = "compilerOptions" then some () else none

/-- Reads a document: its options, if it gives any. -/
def readDocument (t : Tree) : Except Fault (Option Options) :=
  t.readRecord [()] sectionOf? (fun _ value _ => value.readOptional readOptions) none

/-- Nothing may follow a document. -/
def readFinish : List Json.Token → Except Fault Unit
  | [] | ⟨.finish, _⟩ :: _ => .ok ()
  | t :: _ => .error (.malformed t.behind)

/-- Reads the plain text of a document, without comments and trailing commas. -/
def ofPlainText (text : List Char) : Except Fault (Option Options) := do
  let (tree, rest) := Json.treeOf (Json.tokens text)
  let options ← readDocument tree
  readFinish rest
  return options

end Options

end NameResolution
