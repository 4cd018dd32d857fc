import NameResolution.Session

/-!
# Questions to the loaders

Of all that becomes visible while a host works, the questions to its loaders are one
part; the rest is what is logged and traced. `Observed.asking` keeps just the
questions to the loaders of some sides, and leaves the value as it is.

A trace sink, and settings that ask for traces, show in the traces alone. Whatever the
loaders of a session are asked, the answer and the questions are those of loaders
without a sink (`resolveOrFallBack_untraced`, `askType_untraced`); and nobody on the way
to one side's answer asks the other side (`resolveOrFallBack_spares`, `askType_spares`).
-/

namespace NameResolution

/-- The two kinds of names that a host resolves, each with a loader and a cache of its own. -/
inductive Side where
  | modules
  | types
deriving Repr, DecidableEq

/-- The side whose loader is asked. -/
def Observation.side? : Observation → Option Side
  | .askedModule .. | .lookedUp .. => some .modules
  | .askedType .. => some .types
  | .logged _ | .traced _ => none

/-- Is a loader of one of these sides asked? -/
def Observation.isFor (sides : Side → Bool) (o : Observation) : Bool := o.side?.any sides

namespace Observed

variable {α β : Type} (sides : Side → Bool)

/-- A value with the questions to the loaders of these sides, and nothing else that became
visible. -/
def asking (x : Observed α) : Observed α := ⟨x.value, x.seen.filter (·.isFor sides)⟩

@[simp] theorem value_asking (x : Observed α) : (x.asking sides).value = x.value := rfl

theorem value_of_asking {sides : Side → Bool} {x y : Observed α}
    (h : x.asking sides = y.asking sides) : x.value = y.value := by
  rw [← value_asking sides x, h, value_asking]

@[simp] theorem asking_pure (a : α) : (pure a : Observed α).asking sides = pure a := rfl

@[simp] theorem asking_bind (x : Observed α) (f : α → Observed β) :
    (x >>= f).asking sides = x.asking sides >>= fun a => (f a).asking sides :=
  congrArg (mk _) (List.filter_append _ _)

@[simp] theorem asking_log (e : LogEvent) : (log e).asking sides = pure () := rfl

/-- What became visible before, without a question, does not count. -/
theorem asking_map_behind {sides : Side → Bool} (g : α → β) (a : α) {before seen : List Observation}
    (h : before.filter (·.isFor sides) = []) :
    (g <$> (⟨a, before ++ seen⟩ : Observed α)).asking sides =
      ⟨g a, seen.filter (·.isFor sides)⟩ := by
  refine congrArg (mk (g a)) ?_
  show ((before ++ seen) ++ []).filter _ = _
  rw [List.append_nil, List.filter_append, h, List.nil_append]

@[simp] theorem pure_then (a : α) (f : α → Observed β) : (pure a >>= f) = f a := rfl

/-- No loader of these sides is asked. -/
def Spares (x : Observed α) : Prop := x.asking sides = pure x.value

variable {sides}

theorem Spares.pure (a : α) : (Pure.pure a : Observed α).Spares sides := rfl

theorem Spares.of_asking {x : Observed α} {a : α} (h : x.asking sides = Pure.pure a) :
    x.Spares sides := by
  have hvalue : x.value = a := by rw [← value_asking sides x, h, value_pure]
  rw [Spares, h, hvalue]

theorem spares_note {o : Observation} {side : Side} (ho : o.side? = some side)
    (h : sides side = false) : (note o).Spares sides := by
  have hfor : o.isFor sides = false := by rw [Observation.isFor, ho, Option.any_some, h]
  exact congrArg (mk ()) (List.filter_cons_of_neg (by simp [hfor]))

/-- Two steps ask nothing if neither does. -/
theorem Spares.bind {x : Observed α} {f : α → Observed β} (hx : x.Spares sides)
    (hf : ∀ a, (f a).Spares sides) : (x >>= f).Spares sides := by
  rw [Spares, asking_bind, hx, pure_then, hf]
  rfl

end Observed

/-! ## Without a trace -/

def Settings.untraced (s : Settings) : Settings := { s with traceResolution := false }

def Surroundings.untraced (around : Surroundings) : Surroundings :=
  { around with hasTrace := false }

section Loaders

variable {sides : Side → Bool}

/-- Tracing asks nothing. -/
theorem Surroundings.trace_spares (around : Surroundings) (message : String) :
    (around.trace message).Spares sides := by
  unfold trace
  split <;> rfl

@[simp] theorem Surroundings.asking_traceIf (around : Surroundings) (settings : Settings)
    (message : String) : (around.traceIf settings message).asking sides = pure () := by
  unfold traceIf
  split
  next => exact around.trace_spares message
  next => rfl

/-- Asking a storage for its directory asks no loader. -/
theorem Storage.currentDirectory_spares (storage : Storage) (newLine : String) :
    (storage.fileSystem newLine).currentDirectory.Spares sides := by
  cases storage with
  | memory => rfl
  | disk d pinned executing =>
    show (d.currentDirectory pinned).Spares sides
    unfold Disk.currentDirectory
    split
    next => rfl
    next => exact Observed.Spares.bind rfl fun _ => rfl

/-- Resolving a path asks nothing. -/
theorem Storage.resolvePath_spares (storage : Storage) (newLine : String) (p : Path) :
    ((storage.fileSystem newLine).resolvePath p).Spares sides := by
  have hdirectory : (storage.fileSystem newLine).currentDirectory.Spares sides :=
    storage.currentDirectory_spares newLine
  cases storage with
  | memory => rfl
  | disk d pinned executing =>
    show (Disk.resolvePath (d.currentDirectory pinned) p).Spares sides
    unfold Disk.resolvePath
    split
    next => rfl
    next => exact hdirectory.bind fun _ => rfl

namespace Loaders

variable (l : Loaders) {around : Surroundings}

/-- A loader asks no loader, and answers as it does without a trace. -/
theorem asking_resolve (h : around.files.currentDirectory.Spares sides) (settings : Settings)
    (name file : String) :
    (l.moduleLoader.resolve around settings name file).asking sides =
      pure (l.moduleLoader.resolve around.untraced settings.untraced name file).value := by
  cases l with
  | scripted => rfl
  | probing =>
    show (Probing.resolveModule around settings name file).asking sides =
      pure (Probing.resolveModule around.untraced settings.untraced name file).value
    have hcwd : around.files.currentDirectory.asking sides =
        pure around.files.currentDirectory.value := h
    unfold Probing.resolveModule
    by_cases hname : Probing.isMalformed name = true
    · simp [hname]
    · simp [hname, hcwd, Surroundings.untraced]

/-- Asked for a module, a loader answers and asks as it does without a trace. -/
theorem asking_ask (h : around.files.currentDirectory.Spares sides) (settings : Settings)
    (name file : String) :
    (l.moduleLoader.ask around settings name file).asking sides =
      (l.moduleLoader.ask around.untraced settings.untraced name file).asking sides := by
  have huntraced : around.untraced.files.currentDirectory.Spares sides := h
  simp only [ModuleLoader.ask, Observed.asking_bind, l.asking_resolve h,
    l.asking_resolve huntraced]
  rfl

theorem asking_lookUp (settings : Settings) (name : String) (directory : Path)
    (failed : List Path) (oneLevel : Bool) :
    (l.moduleLoader.lookUp around settings name directory failed oneLevel).asking sides =
      pure (l.moduleLoader.lookUp around.untraced settings.untraced name directory failed
        oneLevel).value := by
  cases l <;> rfl

/-- Looking in the typings cache too, a loader asks and answers as it does without a trace. -/
theorem resolveOrFallBack_untraced (h : around.files.currentDirectory.Spares sides)
    (project : Project) (settings : Settings) (name file : String) :
    (l.moduleLoader.resolveOrFallBack around project settings name file).asking sides =
      (l.moduleLoader.resolveOrFallBack around.untraced project settings.untraced name
        file).asking sides := by
  simp only [ModuleLoader.resolveOrFallBack, Observed.asking_bind, l.asking_ask h]
  congr 1
  funext primary
  split
  next => rfl
  next =>
    cases project.fallbackCache? with
    | none => rfl
    | some cache =>
      simp only [ModuleLoader.resolveInCache, ModuleLoader.askOneLevel, Observed.asking_bind,
        Observed.asking_log, Surroundings.asking_traceIf, asking_lookUp, Observed.pure_then]
      rfl

/-- Looking a module up asks no loader of type references. -/
theorem resolveOrFallBack_spares (h : around.files.currentDirectory.Spares sides)
    (hsides : sides .modules = false) (project : Project) (settings : Settings)
    (name file : String) :
    (l.moduleLoader.resolveOrFallBack around project settings name file).Spares sides := by
  have hresolve : (l.moduleLoader.resolve around settings name file).Spares sides :=
    .of_asking (l.asking_resolve h settings name file)
  have hfallback : ∀ cache failed,
      (l.moduleLoader.resolveInCache around project settings name cache failed).Spares sides := by
    intro cache failed
    refine Observed.Spares.bind (.of_asking (around.asking_traceIf settings _)) fun _ => ?_
    refine Observed.Spares.bind (.of_asking (Observed.asking_log sides _)) fun _ => ?_
    refine Observed.Spares.bind ?_ fun _ => .pure _
    exact (Observed.spares_note rfl hsides).bind fun _ =>
      .of_asking (l.asking_lookUp settings name cache failed true)
  refine ((Observed.spares_note rfl hsides).bind fun _ => hresolve).bind fun primary => ?_
  split
  next => exact .pure _
  next =>
    split
    next => exact .pure _
    next cache _ => exact hfallback cache primary.failed

/-- Asking for a type reference is one question; it is answered as without a trace. -/
theorem askType_untraced (settings : Settings) (name file : String) :
    (l.typeLoader.ask around settings name file).asking sides =
      (l.typeLoader.ask around.untraced settings.untraced name file).asking sides := by
  cases l <;> rfl

/-- Asking for a type reference asks no loader of modules. -/
theorem askType_spares (hsides : sides .types = false) (settings : Settings)
    (name file : String) : (l.typeLoader.ask around settings name file).Spares sides := by
  have hresolve : (l.typeLoader.resolve around settings name file).Spares sides := by
    cases l <;> rfl
  exact (Observed.spares_note rfl hsides).bind fun _ => hresolve

end Loaders

end Loaders

end NameResolution
