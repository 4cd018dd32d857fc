import NameResolution.Disk.Basic

/-!
# Walking along a path

A path is walked piece by piece. Every step needs a directory to start from, so
a slash behind the name of a file leads nowhere. A link on the way is replaced
by its target; at the end of a path it is replaced only when asked for. A walk
follows at most 40 links, which bounds it also where links lead in circles.
-/

namespace NameResolution

/-- What a piece of a path asks for. -/
inductive Step where
  /-- An empty piece, or `.`. -/
  | stay
  | up
  | down (name : List Char)
deriving Repr, DecidableEq

namespace Step

def ofPiece (piece : List Char) : Step :=
  if piece = [] ∨ piece = ['.'] then .stay
  else if piece = ['.', '.'] then .up
  else .down piece

/-- The steps of a path's text. -/
def ofText (text : List Char) : List Step := (slashPieces text).map ofPiece

end Step

def byteLength (text : List Char) : Nat := text.foldl (fun n c => n + c.utf8Size) 0

/-- The longest name, in bytes. -/
def nameLimit : Nat := 255

/-- A path has to be shorter than this, in bytes. -/
def pathLimit : Nat := 4096

/-- The most links that are followed on one walk. -/
def linkLimit : Nat := 40

inductive Arrival where
  | found (spot : Spot) (node : Node)
  /-- Nothing stands under the last name, but it could: its directory is there. -/
  | vacant (directory : Spot) (name : List Char)
deriving Repr, DecidableEq

/-- How far a walk comes before it meets a link it has to follow. -/
inductive Leg (α : Type) where
  | arrived (outcome : α)
  | link (base : Spot) (target : List Char) (rest : List Step)
deriving Repr, DecidableEq

namespace Disk

/-- Walks to the end or to the first link that has to be followed. -/
def leg (d : Disk) (followLast : Bool) : Spot → Node → List Step → Except FileError (Leg Arrival)
  | spot, node, [] => .ok (.arrived (.found spot node))
  | spot, .directory, .stay :: rest => d.leg followLast spot .directory rest
  | spot, .directory, .up :: rest => d.leg followLast spot.up .directory rest
  | spot, .directory, .down name :: rest =>
    if spot.gone ≠ 0 then .error .notFound
    else if nameLimit < byteLength name then .error .nameTooLong
    else
      let place := spot.place ++ [name]
      match d.node? place with
      | none => if rest = [] then .ok (.arrived (.vacant spot name)) else .error .notFound
      | some (.link target) =>
        if rest = [] ∧ followLast = false then .ok (.arrived (.found ⟨place, 0⟩ (.link target)))
        else .ok (.link spot target rest)
      | some node => d.leg followLast ⟨place, 0⟩ node rest
  | _, _, _ :: _ => .error .notADirectory

/-- Where a text's path starts from when it is met at `base`. -/
def startOf (base : Spot) (text : List Char) : Spot :=
  if text.head? = some '/' then .root else base

/-- Goes on from link to link, at most `links` times, where `leg` leads to the next link or to the
end. -/
def followLegs {α : Type} (leg : Spot → List Step → Except FileError (Leg α)) :
    Nat → Spot → List Step → Except FileError α
  | links, spot, steps =>
    match leg spot steps with
    | .error e => .error e
    | .ok (.arrived outcome) => .ok outcome
    | .ok (.link base target rest) =>
      match links with
      | 0 => .error .tooManyLinks
      | links + 1 => followLegs leg links (startOf base target) (Step.ofText target ++ rest)

/-- Walks to the end, following at most `links` links. -/
def follow (d : Disk) (followLast : Bool) : Nat → Spot → List Step → Except FileError Arrival :=
  followLegs fun spot steps => d.leg followLast spot .directory steps

/-- Where a path leads, whatever its length. -/
def locate (d : Disk) (followLast : Bool) (p : Path) : Except FileError Arrival :=
  if '\x00' ∈ p.spelling then .error .invalidInput
  else if p.spelling = [] then .error .notFound
  else d.follow followLast linkLimit (startOf d.workingDirectory p.spelling)
    (Step.ofText p.spelling)

/-- Where a path leads. -/
def arrive (d : Disk) (followLast : Bool) (p : Path) : Except FileError Arrival :=
  if '\x00' ∉ p.spelling ∧ pathLimit ≤ byteLength p.spelling then .error .nameTooLong
  else d.locate followLast p

/-- What stands where an arrival is; nothing stands at a vacant place. -/
def occupant : Arrival → Except FileError (Spot × Node)
  | .found spot node => .ok (spot, node)
  | .vacant _ _ => .error .notFound

/-- What a path leads to, links at its end followed. -/
def reach (d : Disk) (p : Path) : Except FileError (Spot × Node) :=
  d.arrive true p >>= occupant

/-- What a path leads to, a link at its end not followed. -/
def reachLink (d : Disk) (p : Path) : Except FileError (Spot × Node) :=
  d.arrive false p >>= occupant

end Disk

end NameResolution
