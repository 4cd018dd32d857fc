import NameResolution.Proofs.Cache.Serving
import NameResolution.Proofs.Loader.Probing
import NameResolution.Session

/-!
# Runs of a session

What one command can do to the tables of a session's host. A resolution that
stands in a file's entry after a command stood there before, or a loader has just
given it; after the settings were replaced none stands anywhere
(`modules_of_step`, `types_of_step`). What holds of every resolution a loader
gives therefore holds of every resolution in a table, after any run.
-/

namespace NameResolution

variable {σ τ : Type}

/-- A resolution in an entry after a batch was there before, or the batch's loader gave it. -/
theorem Cache.resolveNames_entry [Target τ] {c : Cache τ} {key k : CanonicalKey}
    {names : List String} {load : Loader σ τ} {state : σ} {n : String} {r : Resolution τ}
    (h : ((c.resolveNames key names load state).2.1.entry k).get? n = some r) :
    (c.entry k).get? n = some r ∨
      (key = k ∧ n ∈ names ∧ ∃ state', r = (load n state').1.value) := by
  rw [entry, resolveNames_files] at h
  by_cases hk : key = k
  · rw [if_pos hk] at h
    -- the batch rebuilds the entry for just its names
    have hn : n ∈ names := (rebuilt_isSome _ _ _ _ n).mp (Option.isSome_of_eq_some h)
    rcases rebuilt_origin _ _ _ _ h with ⟨hold, -⟩ | ⟨-, hnew⟩
    · exact .inl (hk ▸ hold)
    · exact .inr ⟨hk, hn, hnew⟩
  · rw [if_neg hk] at h
    exact .inl h

theorem Cache.remove_entry {c : Cache τ} {key k : CanonicalKey} {n : String} {r : Resolution τ}
    (h : ((c.remove key).2.entry k).get? n = some r) : (c.entry k).get? n = some r := by
  rw [entry, remove_files] at h
  split at h
  next => cases h
  next => exact h

namespace Session

/-- A session in `/proj` on these files, with probing loaders and a host that has resolved
nothing. -/
def probing (files : FileMap) (project : Project) : Session where
  host := Host.new {}
  storage := .memory files .sensitive (Path.ofString "/proj") (Path.ofString "/bin/tool")
  newLine := "\n"
  scripts := []
  project := project
  loaders := .probing
  hasTrace := false
  cancellation := .never

def after (s : Session) (commands : List Command) : Session :=
  commands.foldl (fun s command => (s.step command).2) s

theorem after_cons (s : Session) (command : Command) (commands : List Command) :
    s.after (command :: commands) = (s.step command).2.after commands := rfl

theorem after_concat (s : Session) (commands : List Command) (command : Command) :
    s.after (commands ++ [command]) = ((s.after commands).step command).2 := by
  rw [after, List.foldl_append]
  rfl

/-- Probing loaders stay, whatever happens: there is no script to replace. -/
theorem loaders_step {s : Session} (h : s.loaders = .probing) (command : Command) :
    (s.step command).2.loaders = .probing := by
  cases command with
  | setLoaderScript script => exact congrArg (Loaders.rescript script) h
  | replaceSettings source =>
    rw [step]
    split
    next => exact h
    next => exact h
  | _ => exact h

/-- The key of a file, as the host of the session sees it. -/
def keyOf (s : Session) (file : String) : CanonicalKey := (s.collaborators.keyOf file).value

/-- What a module name in a file resolves to when no cache is looked at. -/
def moduleAfresh (s : Session) (name file : String) : Resolution ModuleTarget :=
  (s.host.resolveAfresh s.collaborators name file).value

/-- With probing loaders, a module name depends on a file only by the directory the file is seen
in. -/
theorem moduleAfresh_eq {s : Session} (h : s.loaders = .probing) (name file : String) :
    s.moduleAfresh name file =
      Probing.find s.files.fileExists s.project.fallbackCache?
        (Probing.directoryOf s.files.currentDirectory.value file) name := by
  have hloader : s.collaborators.moduleLoader = Probing.moduleLoader := by
    rw [collaborators, h]
    rfl
  exact Probing.resolveAfresh_value s.host hloader name file

/-- What a type reference in a file resolves to when no cache is looked at. -/
def typeAfresh (s : Session) (name file : String) : Resolution TypeTarget :=
  (s.collaborators.typeLoader.ask s.collaborators.surroundings s.host.settings name file).value

/-- A batch of modules answers afresh, when the file's entry holds for reusable what is found
afresh. -/
theorem answer_resolveModules {s : Session} {file : String}
    (hentry : ∀ n r, (s.host.modules.entry (s.keyOf file)).get? n = some r →
      r.isReusable = true → r = s.moduleAfresh n file) (names : List String) :
    (s.step (.resolveModules names file)).1.value =
      .modules (names.map fun n => (s.moduleAfresh n file).target) := by
  have htargets : (s.host.modules.resolveNames (s.keyOf file) names
      (fun n state => (s.host.resolveAfresh s.collaborators n file, state)) ()).1.value.targets =
        names.map fun n => (s.moduleAfresh n file).target := by
    refine Cache.resolveNames_targets_of_answers ?_ hentry names ()
    exact fun _ _ => rfl
  exact congrArg Answer.modules htargets

/-- A batch of type references answers afresh, when the file's entry holds for reusable what is
found afresh. -/
theorem answer_resolveTypes {s : Session} {file : String}
    (hentry : ∀ n r, (s.host.types.entry (s.keyOf file)).get? n = some r →
      r.isReusable = true → r = s.typeAfresh n file) (names : List String) :
    (s.step (.resolveTypes names file)).1.value =
      .types (names.map fun n => (s.typeAfresh n file).target) := by
  have htargets : (s.host.types.resolveNames (s.keyOf file) names
      (fun n state => (s.collaborators.typeLoader.ask s.collaborators.surroundings
        s.host.settings n file, state)) ()).1.value.targets =
        names.map fun n => (s.typeAfresh n file).target := by
    refine Cache.resolveNames_targets_of_answers ?_ hentry names ()
    exact fun _ _ => rfl
  exact congrArg Answer.types htargets

/-- A module's resolution in a table after a command stood there before, or was found just now. -/
theorem modules_of_step {s : Session} {command : Command} {key : CanonicalKey} {n : String}
    {r : Resolution ModuleTarget}
    (h : ((s.step command).2.host.modules.entry key).get? n = some r) :
    (s.host.modules.entry key).get? n = some r ∨
      ∃ names file, command = .resolveModules names file ∧ s.keyOf file = key ∧ n ∈ names ∧
        r = s.moduleAfresh n file := by
  cases command with
  | resolveModules names file =>
    rcases Cache.resolveNames_entry h with hold | ⟨hkey, hn, _, hnew⟩
    · exact .inl hold
    · exact .inr ⟨names, file, rfl, hkey, hn, hnew⟩
  | notifyRemoved file => exact .inl (Cache.remove_entry h)
  | replaceSettings source =>
    cases hread : source.read with
    | error e =>
      simp only [step, hread] at h
      exact .inl h
    | ok settings =>
      simp only [step, hread] at h
      cases h
  | _ => exact .inl h

/-- A type reference's resolution in a table after a command stood there before, or was found just
now; either way under the same settings. -/
theorem types_of_step {s : Session} {command : Command} {key : CanonicalKey} {n : String}
    {r : Resolution TypeTarget}
    (h : ((s.step command).2.host.types.entry key).get? n = some r) :
    (s.step command).2.host.settings = s.host.settings ∧
      ((s.host.types.entry key).get? n = some r ∨
        ∃ names file, command = .resolveTypes names file ∧ s.keyOf file = key ∧
          r = s.typeAfresh n file) := by
  cases command with
  | resolveTypes names file =>
    rcases Cache.resolveNames_entry h with hold | ⟨hkey, -, _, hnew⟩
    · exact ⟨rfl, .inl hold⟩
    · exact ⟨rfl, .inr ⟨names, file, rfl, hkey, hnew⟩⟩
  | notifyRemoved file => exact ⟨rfl, .inl (Cache.remove_entry h)⟩
  | replaceSettings source =>
    cases hread : source.read with
    | error e =>
      simp only [step, hread] at h ⊢
      exact ⟨trivial, .inl h⟩
    | ok settings =>
      simp only [step, hread] at h
      cases h
  | _ => exact ⟨rfl, .inl h⟩

end Session

end NameResolution
