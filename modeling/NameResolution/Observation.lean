import NameResolution.Log.Event
import NameResolution.Settings.Basic

/-!
# Observations

What becomes visible while a question is answered, apart from the answer: log
events, messages at the trace sink, and the questions that went to the loaders.
An `Observed` value carries its observations in the order in which they were
made.
-/

namespace NameResolution

/-- One thing that became visible. -/
inductive Observation where
  | logged (event : LogEvent)
  | traced (message : String)
  /-- The module loader was asked for a name, for a file, under a target. -/
  | askedModule (name containingFile : String) (target : ScriptTarget)
  /-- A lookup in `node_modules` was asked for, with that many failed probes handed in. -/
  | lookedUp (name : String) (directory : Path) (oneLevel : Bool) (failedOnEntry : Nat)
  /-- The loader of type references was asked for a name, for a file, under a target. -/
  | askedType (name containingFile : String) (target : ScriptTarget)
deriving Repr, DecidableEq

/-- A value with what became visible while it was worked out. -/
structure Observed (α : Type) where
  value : α
  seen : List Observation := []

namespace Observed

variable {α β : Type}

instance : Monad Observed where
  pure a := ⟨a, []⟩
  bind x f := ⟨(f x.value).value, x.seen ++ (f x.value).seen⟩

/-- A step that only makes an observation. -/
def note (o : Observation) : Observed Unit := ⟨(), [o]⟩

/-- A step that only reports an event. -/
def log (e : LogEvent) : Observed Unit := note (.logged e)

@[simp] theorem value_pure (a : α) : (pure a : Observed α).value = a := rfl

@[simp] theorem seen_pure (a : α) : (pure a : Observed α).seen = [] := rfl

@[simp] theorem value_bind (x : Observed α) (f : α → Observed β) :
    (x >>= f).value = (f x.value).value := rfl

@[simp] theorem seen_bind (x : Observed α) (f : α → Observed β) :
    (x >>= f).seen = x.seen ++ (f x.value).seen := rfl

theorem bind_eq_self {x : Observed α} {f : α → Observed α} (h : f x.value = pure x.value) :
    (x >>= f) = x := by
  show (⟨(f x.value).value, x.seen ++ (f x.value).seen⟩ : Observed α) = x
  rw [h, value_pure, seen_pure, List.append_nil]

/-- What follows a step depends on the step's value only. -/
theorem bind_congr {x : Observed α} {f g : α → Observed β} (h : f x.value = g x.value) :
    (x >>= f) = (x >>= g) :=
  congrArg (fun y : Observed β => (⟨y.value, x.seen ++ y.seen⟩ : Observed β)) h

end Observed

end NameResolution
