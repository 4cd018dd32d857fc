import NameResolution.Session

/-!
# One more lookup, or none

A module that its loader does not find is looked up once more, in the typings cache. Whatever the
loader is, as long as a lookup of it keeps the failed probes that it is handed
(`ModuleLoader.KeepsProbes`), there are two cases, and `falls_back_once` tells both in full. Either
the loader's own answer stands, and the fallback does not show at all (`Unaided`). Or the loader
is asked for exactly one lookup, announced in the trace if a trace is wanted, and the failed probes
of both are kept (`Aided`), so that a miss can be undone at any of them.

Here a loader is a function; that is no restriction, since each of its two questions is asked at
most once.
-/

namespace NameResolution

/-- A trace shows just if the settings ask for one and there is a sink. -/
theorem Surroundings.traceIf_eq (around : Surroundings) (settings : Settings) (message : String) :
    around.traceIf settings message =
      ⟨(), if settings.traceResolution && around.hasTrace then [.traced message] else []⟩ := by
  unfold traceIf trace
  cases settings.traceResolution <;> cases around.hasTrace <;> rfl

theorem Project.fallbackCache?_eq_none_iff {p : Project} :
    p.fallbackCache? = none ↔ p.autoDiscovery = false ∨ p.typingsCache = none := by
  unfold fallbackCache?
  cases p.autoDiscovery <;> simp

theorem Project.fallbackCache?_eq_some_iff {p : Project} {cache : Path} :
    p.fallbackCache? = some cache ↔ p.autoDiscovery = true ∧ p.typingsCache = some cache := by
  unfold fallbackCache?
  cases p.autoDiscovery <;> simp

namespace ModuleLoader

/-- Does a lookup only add to the failed probes that it is handed? -/
def KeepsProbes (l : ModuleLoader) : Prop :=
  ∀ around settings name directory failed oneLevel,
    failed <+: (l.lookUp around settings name directory failed oneLevel).value.2

variable (l : ModuleLoader) (around : Surroundings) (project : Project) (settings : Settings)
  (name file : String)

/-- Does the answer of the loader stand, with nothing else to be seen? -/
def Unaided : Prop :=
  l.resolveOrFallBack around project settings name file = l.ask around settings name file

/-- Is the answer that of one lookup in the typings cache, behind the loader's own miss? -/
structure Aided (cache : Path) : Prop where
  /-- Behind the loader's own work comes the message, if it is wanted, then the one lookup: of this
  name, in this directory, one level only, with the loader's failed probes handed in. -/
  seen :
    let primary := l.ask around settings name file
    let lookup := l.lookUp around settings name cache primary.value.failed true
    (l.resolveOrFallBack around project settings name file).seen =
      primary.seen ++
      (if settings.traceResolution && around.hasTrace then
        [.traced (fallbackMessage project name cache)] else []) ++
      [.logged (.searchingTypings project.name name cache),
        .lookedUp name cache true primary.value.failed.length] ++
      lookup.seen
  /-- What the lookup finds is the target, and external. -/
  target :
    let primary := l.ask around settings name file
    let lookup := l.lookUp around settings name cache primary.value.failed true
    (l.resolveOrFallBack around project settings name file).value.target =
      lookup.value.1.map fun file => ⟨file, true⟩
  /-- The failed probes are the loader's, and those of the lookup behind them; with any of them, a
  miss is provisional. -/
  failed :
    let primary := l.ask around settings name file
    let lookup := l.lookUp around settings name cache primary.value.failed true
    let result := (l.resolveOrFallBack around project settings name file).value
    ∃ probes, lookup.value.2 = primary.value.failed ++ probes ∧
      result.failed = primary.value.failed ++ probes ∧
      (result.target = none →
        (result.isReusable = false ↔ primary.value.failed ≠ [] ∨ probes ≠ []))

variable {l around project settings name file}

theorem unaided_of_stands (h : (l.ask around settings name file).value.target.isSome = true ∨
    project.fallbackCache? = none) : l.Unaided around project settings name file := by
  refine Observed.bind_eq_self ?_
  rcases h with hhit | hcache
  · rw [if_pos hhit]
  · rw [hcache, ite_self]

/-- With a typings cache to fall back on, a miss is looked up there. -/
theorem resolveOrFallBack_of_miss {cache : Path}
    (hmiss : (l.ask around settings name file).value.target = none)
    (hcache : project.fallbackCache? = some cache) :
    l.resolveOrFallBack around project settings name file =
      (l.ask around settings name file >>= fun primary =>
        l.resolveInCache around project settings name cache primary.failed) := by
  refine Observed.bind_congr ?_
  rw [hmiss, hcache]
  rfl

theorem KeepsProbes.aided (hkeeps : l.KeepsProbes) {cache : Path}
    (hmiss : (l.ask around settings name file).value.target = none)
    (hcache : project.fallbackCache? = some cache) :
    l.Aided around project settings name file cache := by
  obtain ⟨probes, hprobes⟩ := hkeeps around settings name cache
    (l.ask around settings name file).value.failed true
  have hrun := resolveOrFallBack_of_miss hmiss hcache
  constructor
  case seen =>
    rw [hrun]
    simp [resolveInCache, askOneLevel, Surroundings.traceIf_eq, Observed.log, Observed.note]
  case target =>
    rw [hrun]
    rfl
  case failed =>
    have hfailed : (l.resolveOrFallBack around project settings name file).value.failed =
        (l.ask around settings name file).value.failed ++ probes := by
      rw [hrun, hprobes]
      rfl
    refine ⟨probes, hprobes.symm, hfailed, fun htarget => ?_⟩
    rw [Resolution.isReusable, htarget, hfailed]
    simp [← Decidable.not_and_iff_not_or_not]

end ModuleLoader

/-- The loaders of a session keep the failed probes that they are handed. -/
theorem Loaders.keepsProbes (l : Loaders) : l.moduleLoader.KeepsProbes := by
  intro around settings name directory failed oneLevel
  cases l with
  | probing => exact List.prefix_append _ _
  | scripted script => exact List.prefix_append _ _

/-- **The fallback is one lookup, or none.** Whatever loader stands in front of the typings cache:
its own answer stands, and nothing else is seen, when it finds the name, when typings must not be
discovered, and when there is no typings cache. Otherwise the name is looked up once, in the
typings cache only, and the failed probes of both are kept. -/
theorem falls_back_once {l : ModuleLoader} (hkeeps : l.KeepsProbes) (around : Surroundings)
    (project : Project) (settings : Settings) (name file : String) :
    ((l.ask around settings name file).value.target.isSome = true ∨
        project.autoDiscovery = false ∨ project.typingsCache = none →
      l.Unaided around project settings name file) ∧
    ∀ cache, (l.ask around settings name file).value.target = none →
      project.autoDiscovery = true → project.typingsCache = some cache →
        l.Aided around project settings name file cache := by
  constructor
  · intro h
    rw [← Project.fallbackCache?_eq_none_iff] at h
    exact ModuleLoader.unaided_of_stands h
  · intro cache hmiss hauto hcache
    exact hkeeps.aided hmiss (Project.fallbackCache?_eq_some_iff.mpr ⟨hauto, hcache⟩)

/-- A name that only a lookup in the typings cache can find, behind a miss that was probed for, with
a trace; and a name that the loader finds by itself. -/
theorem scripted_falls_back_once :
    ∃ (l : ModuleLoader) (around : Surroundings) (project : Project) (settings : Settings),
      l = (Loaders.scripted
        { modules := Table.ofList
            [("a", .notFound [Path.ofString "/a"]),
             ("b", .found ⟨Path.ofString "/b", false⟩ [])]
          nodeModules := Table.ofList [("a", { failed := [Path.ofString "/t/a"] })]
          }).moduleLoader ∧
      around = ⟨FileMap.fileSystem {} .sensitive ⟨[]⟩ ⟨[]⟩ "\n", true⟩ ∧
      project = { name := "p", version := "1", autoDiscovery := true
                  typingsCache := some (Path.ofString "/t") } ∧
      settings = { traceResolution := true } ∧ l.KeepsProbes ∧
      (l.ask around settings "a" "m.ts").value.target = none ∧
      l.Aided around project settings "a" "m.ts" (Path.ofString "/t") ∧
      (l.resolveOrFallBack around project settings "a" "m.ts").value.failed.length = 2 ∧
      (l.resolveOrFallBack around project settings "a" "m.ts").seen.length = 4 ∧
      (l.ask around settings "b" "m.ts").value.target.isSome = true ∧
      l.Unaided around project settings "b" "m.ts" := by
  refine ⟨_, _, _, _, rfl, rfl, rfl, rfl, Loaders.keepsProbes _, rfl, ?_, rfl, rfl, rfl, ?_⟩
  · exact (falls_back_once (Loaders.keepsProbes _) _ _ _ _ _).2 _ rfl rfl rfl
  · exact (falls_back_once (Loaders.keepsProbes _) _ _ _ _ _).1 (.inl rfl)

end NameResolution
