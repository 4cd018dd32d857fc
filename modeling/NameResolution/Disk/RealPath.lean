import NameResolution.Disk.Walk

/-!
# Real paths

The real path of what a path leads to is a path without links, `.` and `..`. It is
found piece by piece: every name on the way is asked for by the path of the place
that was come to so far with the name behind it. So it is these paths that have to
be short enough, and not the path that was given. A relative path is seen from the
path of the process's directory, and has no real path when that was deleted.
-/

namespace NameResolution

/-- Do the steps behind a name need a directory under it, without another name in it that would
show that there is none? -/
def Step.needDirectory : List Step → Bool
  | [] => false
  | .stay :: rest => rest.isEmpty || needDirectory rest
  | .up :: _ => true
  | .down _ :: _ => false

namespace Disk

/-- The path of a place, from the root down. -/
def pathOf (place : Place) : Path := Path.ofComponents (.root :: place.map .name)

/-- What stands under a name, asked for by its whole path. Where the steps behind the name need a
directory, the path is asked for with a slash at its end, unless a link stands there. -/
def lookUp (d : Disk) (spot : Spot) (name : List Char) (rest : List Step) :
    Except FileError (Spot × Node) :=
  let p := pathOf (spot.place ++ [name])
  match d.reachLink p with
  | .ok (found, .link target) => .ok (found, .link target)
  | outcome => if Step.needDirectory rest then d.reach ⟨p.spelling ++ ['/']⟩ else outcome

/-- Goes along the steps to the end or to the first link, and asks for every name by its path. -/
def realLeg (d : Disk) : Spot → List Step → Except FileError (Leg Spot)
  | spot, [] => .ok (.arrived spot)
  | spot, .stay :: rest => d.realLeg spot rest
  | spot, .up :: rest => d.realLeg spot.up rest
  | spot, .down name :: rest =>
    match d.lookUp spot name rest with
    | .error e => .error e
    | .ok (_, .link target) => .ok (.link spot target rest)
    | .ok (found, _) => d.realLeg found rest

/-- Where the steps lead, every name on the way asked for by its path, and at most `links` links
followed. -/
def realSpot (d : Disk) : Nat → Spot → List Step → Except FileError Spot := followLegs d.realLeg

/-- The place a path leads to, as a path without links. -/
def realPath (d : Disk) (p : Path) : Except FileError Path :=
  if '\x00' ∈ p.spelling then .error .invalidInput
  else if p.spelling = [] then .error .notFound
  else if p.isAbsolute = false ∧ d.workingDirectory.gone ≠ 0 then .error .notFound
  else do
    let start := startOf d.workingDirectory p.spelling
    let spot ← d.realSpot linkLimit start (Step.ofText p.spelling)
    return pathOf spot.place

end Disk

end NameResolution
