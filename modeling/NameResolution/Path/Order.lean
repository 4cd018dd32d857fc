import NameResolution.Path.Basic

/-!
# The order of paths, and sorted lists

Paths are ordered component by component: the root before `.`, `.` before `..`,
`..` before names, and names by their characters. Lists that are handed out are
sorted and hold no value twice.
-/

namespace NameResolution

/-- What a component is ordered by. -/
def Component.weight : Component → List Nat
  | .root => [0]
  | .current => [1]
  | .parent => [2]
  | .name t => 3 :: t.map Char.toNat

/-- What a path is ordered by. -/
def Path.weight (p : Path) : List (List Nat) := p.components.map Component.weight

def Path.compare (p q : Path) : Ordering := Ord.compare p.weight q.weight

/-- Puts a value into a sorted list at its place, unless an equal one is there. -/
def insertSorted {α : Type} (cmp : α → α → Ordering) (a : α) : List α → List α
  | [] => [a]
  | b :: rest =>
    match cmp a b with
    | .lt => a :: b :: rest
    | .eq => b :: rest
    | .gt => b :: insertSorted cmp a rest

/-- The values in ascending order, each once. -/
def sortDistinct {α : Type} (cmp : α → α → Ordering) (l : List α) : List α :=
  l.foldr (insertSorted cmp) []

end NameResolution
