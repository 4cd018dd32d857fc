/-!
# Paths

A path keeps the text it was spelled with and is *read* as a list of
components: an optional root, then names, `.` and `..`. Empty pieces between
slashes and `.` pieces after the start mean nothing; a `.` that opens a relative
path is a component. Two spellings with the same components name the same
place, `Path.same`; what is printed is always the spelling.
-/

namespace NameResolution

/-- One step of a path. A name is not empty, holds no `/`, and is neither `.` nor `..`. -/
inductive Component where
  | root
  | current
  | parent
  | name (text : List Char)
deriving Repr, DecidableEq

/-- A path, as it is spelled. -/
structure Path where
  /-- The characters the path is written with. -/
  spelling : List Char
deriving Repr, DecidableEq, Inhabited

/-- The pieces of a text between its slashes: one more than there are slashes. -/
def slashPieces : List Char → List (List Char)
  | [] => [[]]
  | c :: rest =>
    if c = '/' then [] :: slashPieces rest
    else match slashPieces rest with
      | piece :: pieces => (c :: piece) :: pieces
      | [] => [[c]]

namespace Component

/-- The text of a component inside a path. -/
def text : Component → List Char
  | .root => ['/']
  | .current => ['.']
  | .parent => ['.', '.']
  | .name t => t

/-- What a piece between slashes means behind the start of a path. -/
def ofPiece? (piece : List Char) : Option Component :=
  if piece = [] ∨ piece = ['.'] then none
  else if piece = ['.', '.'] then some .parent
  else some (.name piece)

end Component

namespace Path

def ofString (s : String) : Path := ⟨s.toList⟩

def toString (p : Path) : String := String.ofList p.spelling

/-- The components of a text that follows a root or a first component. -/
def componentsOf (text : List Char) : List Component :=
  (slashPieces text).filterMap Component.ofPiece?

def components (p : Path) : List Component :=
  match p.spelling with
  | '/' :: rest => .root :: componentsOf rest
  | ['.'] => [.current]
  | '.' :: '/' :: rest => .current :: componentsOf rest
  | text => componentsOf text

def isAbsolute (p : Path) : Bool := p.spelling.head? == some '/'

/-- Do two spellings have the same components? -/
def same (p q : Path) : Bool := p.components == q.components

/-- Is `base` a prefix of the path, component by component? -/
def startsWith (p base : Path) : Bool := base.components.isPrefixOf p.components

/-- A text that more can be written behind: empty, or with a slash at its end. -/
def opened (text : List Char) : List Char :=
  if text = [] ∨ text.getLast? = some '/' then text else text ++ ['/']

/-- `tail` as seen from `base`: an absolute tail stands for itself, any other is written behind. -/
def join (base tail : Path) : Path :=
  if tail.isAbsolute then tail else ⟨opened base.spelling ++ tail.spelling⟩

/-- Components written with single slashes between them. -/
def slashed : List Component → List Char
  | [] => []
  | [c] => c.text
  | c :: rest => c.text ++ '/' :: slashed rest

/-- The plain spelling of a list of components: no slash twice, none at the end. -/
def ofComponents : List Component → Path
  | .root :: rest => ⟨'/' :: slashed rest⟩
  | cs => ⟨slashed cs⟩

/-- The path one step up, plainly spelled; the root and the empty path have none. -/
def parent? (p : Path) : Option Path :=
  match p.components.getLast? with
  | none | some .root => none
  | some _ => some (ofComponents p.components.dropLast)

/-- The name a path ends in, when it ends in a name. -/
def fileName? (p : Path) : Option (List Char) :=
  match p.components.getLast? with
  | some (.name t) => some t
  | _ => none

end Path

end NameResolution
