import Mathlib.Data.List.Basic
import NameResolution.Proofs.Cache.Answers
import NameResolution.Proofs.Loader.Questions

/-!
# Batches and the questions of their loaders

What a batch answers and leaves behind depends on what its loader answers, not on what
becomes visible meanwhile. So two loaders that agree on their answers and on the
questions they ask may take each other's place: the batches agree on the same, and the
caches behind them are equal (`resolveNames_of_asking`). A batch itself asks nothing but
its loader (`resolveNames_spares`).
-/

namespace NameResolution

variable {σ τ : Type} (sides : Side → Bool)

/-- The loader with its questions to these sides, and nothing else that becomes visible. -/
def Loader.asking (load : Loader σ τ) : Loader σ τ := fun name state =>
  ((load name state).1.asking sides, (load name state).2)

/-- A served name with the questions to these sides. -/
def Served.asking (s : Served τ) : Served τ := { s with seen := s.seen.filter (·.isFor sides) }

/-- The cache's own reports are no questions. -/
theorem Served.filter_observations (s : Served τ) :
    s.observations.filter (·.isFor sides) = (s.asking sides).seen := by
  have hreports : (s.events.map Observation.logged).filter (·.isFor sides) = [] := by
    rw [List.filter_map, List.map_eq_nil_iff, List.filter_eq_nil_iff]
    exact fun _ _ => Bool.false_ne_true
  rw [observations, List.filter_append, hreports]
  rfl

/-- With a loader of which only the questions are seen, a name is served alike, and only the
questions are seen. -/
theorem serve_asking (previous : Entry τ) (load : Loader σ τ) (name : String)
    (p : Progress σ τ) :
    serve previous (load.asking sides) name p =
      ((serve previous load name p).1.asking sides, (serve previous load name p).2) := by
  unfold serve
  split
  next => rfl
  next =>
    split
    next => split <;> rfl
    next => rfl

/-- So it is with all names, one after the other. -/
theorem serveAll_asking (previous : Entry τ) (load : Loader σ τ) :
    ∀ (names : List String) (p : Progress σ τ),
      serveAll previous (load.asking sides) names p =
        ((serveAll previous load names p).1.map (Served.asking sides),
          (serveAll previous load names p).2)
  | [], _ => rfl
  | name :: names, p => by
    have ih := serveAll_asking previous load names (serve previous load name p).2
    rw [serveAll_cons, serveAll_cons, serve_asking, ih, List.map_cons]

namespace Cache

variable (c : Cache τ) (key : CanonicalKey) (names : List String) (state : σ)

/-- Removing a file asks nothing. -/
theorem remove_spares {sides : Side → Bool} : (c.remove key).1.Spares sides := by
  unfold remove
  split <;> rfl

variable [Target τ]

/-- The questions of a batch are those of its loader. -/
theorem asking_resolveNames (load : Loader σ τ) :
    (c.resolveNames key names load state).1.asking sides =
      ⟨(c.resolveNames key names load state).1.value,
        (c.servedNames key names load state).flatMap fun s => (s.asking sides).seen⟩ := by
  have hseen : (c.resolveNames key names load state).1.seen =
      .logged (.resolvingNames c.label key names.length) ::
        (c.servedNames key names load state).flatMap Served.observations := rfl
  refine congrArg (Observed.mk _) ?_
  rw [hseen, List.filter_cons_of_neg Bool.false_ne_true, List.filter_flatMap]
  exact List.flatMap_congr fun s _ => s.filter_observations sides

/-- For a batch, a loader and its questions alone come to the same. -/
theorem resolveNames_asking (load : Loader σ τ) :
    (c.resolveNames key names (load.asking sides) state).1.asking sides =
        (c.resolveNames key names load state).1.asking sides ∧
      (c.resolveNames key names (load.asking sides) state).2 =
        (c.resolveNames key names load state).2 := by
  have hserved : c.servedNames key names (load.asking sides) state =
      (c.servedNames key names load state).map (Served.asking sides) :=
    congrArg Prod.fst (serveAll_asking sides (c.entry key) load names ⟨Table.empty, state⟩)
  constructor
  · have hvalue : (c.resolveNames key names (load.asking sides) state).1.value =
        (c.resolveNames key names load state).1.value := by
      simp only [resolveNames, serveAll_asking, List.map_map, List.any_map]
      rfl
    rw [asking_resolveNames, asking_resolveNames, hvalue, hserved, List.flatMap_map]
    simp [Served.asking]
  · simp only [resolveNames, serveAll_asking, List.map_map]
    rfl

variable {sides}

/-- Loaders that agree on their answers and on their questions to these sides make no
difference to a batch but in what else becomes visible. -/
theorem resolveNames_of_asking {load load' : Loader σ τ}
    (h : load.asking sides = load'.asking sides) :
    (c.resolveNames key names load state).1.asking sides =
        (c.resolveNames key names load' state).1.asking sides ∧
      (c.resolveNames key names load state).2 = (c.resolveNames key names load' state).2 := by
  obtain ⟨hbatch, hrest⟩ := c.resolveNames_asking sides key names state load
  obtain ⟨hbatch', hrest'⟩ := c.resolveNames_asking sides key names state load'
  rw [← hbatch, ← hrest, h, hbatch', hrest']
  exact ⟨rfl, rfl⟩

/-- A batch asks nobody but its loader. -/
theorem resolveNames_spares {load : Loader σ τ}
    (h : ∀ name state, (load name state).1.Spares sides) :
    (c.resolveNames key names load state).1.Spares sides := by
  have hserve : ∀ (name : String) (p : Progress σ τ),
      ((serve (c.entry key) load name p).1.asking sides).seen = [] := by
    intro name p
    rcases serve_cases (c.entry key) load name p with ⟨_, _, hs⟩ | ⟨_, _, _, _, hs⟩ | ⟨_, _, hs⟩
    · rw [hs]
      rfl
    · rw [hs]
      rfl
    · rw [hs]
      exact congrArg Observed.seen (h name p.loader)
  rw [Observed.Spares, asking_resolveNames]
  refine congrArg (Observed.mk _) (List.flatMap_eq_nil_iff.mpr ?_)
  exact serveAll_forall hserve names ⟨Table.empty, state⟩

end Cache

end NameResolution
