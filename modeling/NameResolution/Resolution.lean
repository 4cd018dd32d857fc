import NameResolution.Path.Basic

/-!
# Resolutions

A resolution says what a name stands for: a target, or nothing, together with
the places that were probed in vain on the way. Finding nothing is an ordinary
answer. Without a target and without a failed probe it is *definitive*; without
a target and with failed probes it is *provisional*, since a file may appear at
one of those places.
-/

namespace NameResolution

/-- What a name resolved to, and where it was looked for in vain, in the order of the probes. -/
structure Resolution (τ : Type) where
  target : Option τ
  failed : List Path
deriving Repr, DecidableEq

/-- The file a module name stands for. -/
structure ModuleTarget where
  file : Path
  /-- Does the file belong to a library outside the project? -/
  isExternal : Bool
deriving Repr, DecidableEq

/-- The declaration file a type reference stands for. -/
structure TypeTarget where
  file : Option Path
  /-- Was it found in a type root, rather than on the way up from the file? -/
  isPrimary : Bool
deriving Repr, DecidableEq

/-- What can be the target of a resolution. -/
class Target (τ : Type) where
  /-- The file that a target stands for, if it stands for one. -/
  file? : τ → Option Path

instance : Target ModuleTarget := ⟨fun t => some t.file⟩

instance : Target TypeTarget := ⟨TypeTarget.file⟩

/-- Targets of any other kind stand for no file. -/
instance (priority := low) {τ : Type} : Target τ := ⟨fun _ => none⟩

/-- Do two targets stand for one file, or both for none? -/
def Target.sameFile {τ : Type} [Target τ] (t t' : τ) : Bool :=
  match file? t, file? t' with
  | some p, some p' => p.same p'
  | none, none => true
  | _, _ => false

namespace Resolution

variable {τ : Type}

def found (target : τ) (failed : List Path) : Resolution τ := ⟨some target, failed⟩

def notFound (failed : List Path) : Resolution τ := ⟨none, failed⟩

instance : Inhabited (Resolution τ) := ⟨notFound []⟩

/-- May the resolution be given out again without a new probe? A target is trusted, and so is a
miss that probed nothing: nothing could have appeared since at a place it looked at. -/
def isReusable (r : Resolution τ) : Bool := r.target.isSome || r.failed.isEmpty

/-- An absent resolution is never reusable. -/
def isReusable? : Option (Resolution τ) → Bool
  | none => false
  | some r => r.isReusable

/-- Does a new resolution say the same as the one it replaces, if it replaces one? `same` compares
targets, such as by their files. -/
def confirms (same : τ → τ → Bool) (new : Resolution τ) : Option (Resolution τ) → Bool
  | none => false
  | some old =>
    match old.target, new.target with
    | none, none => true
    | some t, some t' => same t t'
    | _, _ => false

end Resolution

end NameResolution
