import Mathlib.Data.List.TakeWhile
import NameResolution.Host
import NameResolution.Loader.Probing

/-!
# What the probing loaders find

The outcome of a lookup without what becomes visible on the way. For modules it
is `Probing.find`: the loader's own candidates first, the one place in the typings
cache second. It depends on the files, on the typings cache to fall back on, on
the directory a name is seen from, and on the name; on nothing else.
-/

namespace NameResolution

/-- A search finds the first candidate that is a file; those before it failed. -/
theorem firstFile_eq (isFile : Path → Bool) (ps : List Path) :
    firstFile isFile ps = (ps.find? isFile, ps.takeWhile fun p => !isFile p) := by
  induction ps with
  | nil => rfl
  | cons p ps ih =>
    by_cases hp : isFile p = true
    · simp [firstFile, hp]
    · simp [firstFile, hp, ih]

/-- A search in vain has probed every candidate. -/
theorem firstFile_failed {isFile : Path → Bool} {ps : List Path}
    (h : (firstFile isFile ps).1 = none) : (firstFile isFile ps).2 = ps := by
  rw [firstFile_eq] at h ⊢
  rw [List.takeWhile_eq_self_iff]
  intro p hp
  have hfile := List.find?_eq_none.mp h p hp
  simpa using hfile

/-- What a loader with a fallback finds: what the loader finds by itself, otherwise what it finds
in the typings cache, if there is one to fall back on. -/
theorem ModuleLoader.resolveOrFallBack_value (l : ModuleLoader) (around : Surroundings)
    (project : Project) (settings : Settings) (name file : String) :
    (l.resolveOrFallBack around project settings name file).value =
      let primary := (l.resolve around settings name file).value
      match primary.target, project.fallbackCache? with
      | none, some cache =>
        let (hit, failed) := (l.lookUp around settings name cache primary.failed true).value
        ⟨hit.map fun file => ⟨file, true⟩, failed⟩
      | _, _ => primary := by
  simp only [resolveOrFallBack, ask, resolveInCache, askOneLevel, Observed.value_bind]
  cases ht : (l.resolve around settings name file).value.target with
  | some t => simp
  | none =>
    cases project.fallbackCache? with
    | none => simp
    | some cache => simp

namespace Probing

/-- Where a name is looked for, seen from a directory: nowhere when it is malformed. -/
def probes (name : String) (directory : Path) : List Path :=
  if isMalformed name then [] else candidates name directory

/-- Only for a malformed name there is nothing to probe. -/
theorem probes_eq_nil_iff {name : String} {directory : Path} :
    probes name directory = [] ↔ isMalformed name = true := by
  have hcandidates : candidates name directory ≠ [] := by
    unfold candidates
    split
    next => simp
    next =>
      unfold Path.selfAndAbove
      cases directory.components.length <;> simp [Path.upwards]
  unfold probes
  split
  next h => simp [h]
  next h => simp [h, hcandidates]

/-- What a module name stands for, seen from a directory: the first of its candidates that is a
file, otherwise the file in the typings cache, if there is a cache to fall back on. -/
def find (isFile : Path → Bool) (cache : Option Path) (directory : Path) (name : String) :
    Resolution ModuleTarget :=
  let primary : Resolution ModuleTarget :=
    .ofSearch (fun file => ⟨file, !isRelative name⟩) (firstFile isFile (probes name directory))
  match primary.target, cache with
  | none, some cache =>
    let (hit, probed) := firstFile isFile [inNodeModules name cache]
    ⟨hit.map fun file => ⟨file, true⟩, primary.failed ++ probed⟩
  | _, _ => primary

/-- A module name is searched for among its probes. -/
theorem resolveModule_value (around : Surroundings) (settings : Settings) (name file : String) :
    (resolveModule around settings name file).value =
      .ofSearch (fun file => ⟨file, !isRelative name⟩)
        (firstFile around.files.fileExists
          (probes name (directoryOf around.files.currentDirectory.value file))) := by
  unfold resolveModule probes
  by_cases h : isMalformed name = true <;>
    simp [h, Resolution.notFound, Resolution.ofSearch, firstFile]

/-- What the probing loader finds, with the typings cache behind it. -/
theorem resolveOrFallBack_find (around : Surroundings) (project : Project) (settings : Settings)
    (name file : String) :
    (moduleLoader.resolveOrFallBack around project settings name file).value =
      find around.files.fileExists project.fallbackCache?
        (directoryOf around.files.currentDirectory.value file) name := by
  rw [ModuleLoader.resolveOrFallBack_value]
  have hprimary := resolveModule_value around settings name file
  change (moduleLoader.resolve around settings name file).value = _ at hprimary
  -- what is left is to look the name up in the typings cache, as `find` does
  rw [hprimary]
  rfl

/-- With the probing loader, a name is found among its probes, or in the cache of typings. -/
theorem resolveAfresh_value (h : Host) {c : Collaborators}
    (hloader : c.moduleLoader = moduleLoader) (name file : String) :
    (h.resolveAfresh c name file).value =
      find c.files.fileExists c.project.fallbackCache?
        (directoryOf c.files.currentDirectory.value file) name := by
  rw [Host.resolveAfresh, hloader]
  exact resolveOrFallBack_find c.surroundings c.project h.settings name file

/-- What a type reference stands for depends on the type roots and the files, not on the file it
stands in. -/
theorem askType_value {c : Collaborators} (hloader : c.typeLoader = typeLoader)
    (settings : Settings) (name file : String) :
    (c.typeLoader.ask c.surroundings settings name file).value =
      .ofSearch (fun file => ⟨some file, true⟩)
        (firstFile c.files.fileExists
          ((settings.typeRoots.getD defaultTypeRoots).map (inTypeRoot name))) := by
  rw [hloader]
  rfl

/-- A malformed name is found in the cache of typings, or not at all. -/
theorem find_of_isMalformed {isFile : Path → Bool} {cache : Option Path} {directory : Path}
    {name : String} (h : isMalformed name = true) :
    (find isFile cache directory name).target.isSome = true ↔
      ∃ place, cache = some place ∧ isFile (inNodeModules name place) = true := by
  have hprobes : probes name directory = [] := probes_eq_nil_iff.mpr h
  cases cache with
  | none => simp [find, hprobes, firstFile, Resolution.ofSearch]
  | some place =>
    by_cases hfile : isFile (inNodeModules name place) = true
    · simp [find, hprobes, firstFile, Resolution.ofSearch, hfile]
    · simp [find, hprobes, firstFile, Resolution.ofSearch, hfile]

/-- Only a malformed name is missed without a probe, and only without a typings cache. -/
theorem isMalformed_of_find {isFile : Path → Bool} {cache : Option Path} {directory : Path}
    {name : String} (h : find isFile cache directory name = .notFound []) :
    isMalformed name = true ∧ cache = none := by
  cases hsearch : (firstFile isFile (probes name directory)).1 with
  | some file => simp [find, Resolution.ofSearch, Resolution.notFound, hsearch] at h
  | none =>
    have hprobed := firstFile_failed hsearch
    cases cache with
    | none =>
      simp only [find, Resolution.ofSearch, Resolution.notFound, hsearch, hprobed, Option.map_none,
        Resolution.mk.injEq] at h
      exact ⟨probes_eq_nil_iff.mp h.2, rfl⟩
    | some place =>
      simp only [find, Resolution.ofSearch, Resolution.notFound, hsearch, Option.map_none,
        Resolution.mk.injEq, List.append_eq_nil_iff] at h
      obtain ⟨htarget, -, hfailed⟩ := h
      -- a search for one candidate either finds it or probes it in vain
      have hmiss : (firstFile isFile [inNodeModules name place]).1 = none :=
        Option.map_eq_none_iff.mp htarget
      rw [firstFile_failed hmiss] at hfailed
      cases hfailed

end Probing

end NameResolution
