import NameResolution.Text.LowerCase.Mapping
import NameResolution.Text.LowerCase.Context

/-!
# Lower case of a text

Every character is lowered by itself, with one exception that depends on where
it stands: the capital sigma becomes the final sigma at the end of a word. A
place is the end of a word when a cased letter stands before it and none after
it, marks that may stand inside a word left aside.
-/

namespace NameResolution.Text

/-- Is the first character that is not passed over a cased one? -/
def meetsCased (s : List Char) : Bool :=
  match s.dropWhile isCaseIgnorable with
  | c :: _ => isCased c
  | [] => false

/-- The lower case of a capital sigma between `before` (nearest character first) and `after`. -/
def lowerSigma (before after : List Char) : Char :=
  if meetsCased before && !meetsCased after then 'ς' else 'σ'

/-- Lower-cases the rest of a text whose characters so far are `before`, the nearest first. -/
def lowerAfter (before : List Char) : List Char → List Char
  | [] => []
  | c :: rest =>
    (if c = 'Σ' then [lowerSigma before rest] else lowerChar c) ++ lowerAfter (c :: before) rest

def lowerCase (s : List Char) : List Char := lowerAfter [] s

end NameResolution.Text
