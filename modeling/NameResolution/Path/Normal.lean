import NameResolution.Path.Basic

/-!
# The normal form of a path

`Path.normalise` resolves `.` and `..` by the text alone, without looking at any
file. The components are read from left to right over a stack: a name is put on
top, `..` takes a name off, stays out at the root, and is kept when there is
nothing to take off. The result is plainly spelled.

The stack departs from what it stands for, a path that is written while the
components are read. Such a path grows by one component after the other, and at
`..` its last component is read back from what was written, to see whether it can
be taken off again. Here nothing is read back, and the path is written once, from
what is left on the stack. Both ways end with the same path
(`Path.foldl_grow_components`).
-/

namespace NameResolution

/-- One component read over the stack of those kept so far, the nearest on top. -/
def Component.stack : List Component → Component → List Component
  | kept, .current => kept
  | .name _ :: below, .parent => below
  | .root :: below, .parent => .root :: below
  | kept, c => c :: kept

/-- The components that are left when `.` and `..` are resolved. -/
def Component.collapse (cs : List Component) : List Component :=
  (cs.foldl Component.stack []).reverse

namespace Path

/-- The normal form: `.` and `..` resolved by the text alone, plainly spelled. -/
def normalise (p : Path) : Path := ofComponents (Component.collapse p.components)

/-- `tail` seen from `base`, in normal form. -/
def anchor (base tail : Path) : Path := (base.join tail).normalise

end Path

end NameResolution
