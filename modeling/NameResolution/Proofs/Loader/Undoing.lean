import NameResolution.FileMap
import NameResolution.Proofs.Loader.Probing

/-!
# What would undo a miss

A miss with failed probes is looked up again, one without is not. That is right only if the
failed probes are all that the miss hangs on: as long as none of those places is a file it must
stay the same miss, and once one of them is, the first of them must be found.

For the probing loaders it is so, since every lookup is a search
(`Resolution.IsSearch`): of a list of places the first that is a file is found. Which places
these are does not depend on the files. For a module they are the candidates of the loader and,
behind them, the one place in the typings cache (`Probing.places`). A search in vain has
probed all its places, so that its failed probes are the search of any later lookup
(`miss_tells_retry`).
-/

namespace NameResolution

variable {τ : Type}

namespace Resolution

/-- Is it the outcome of a search of these places? `file?` gives the file of a target. -/
structure IsSearch (file? : τ → Option Path) (isFile : Path → Bool) (places : List Path)
    (r : Resolution τ) : Prop where
  /-- The first place that is a file is found. -/
  target : r.target.map file? = (places.find? isFile).map some
  /-- The places before it are the failed probes; if none is a file, all of them are. -/
  failed : r.failed = places.takeWhile fun p => !isFile p

/-- Is it what a miss with these failed probes comes to when it is looked up again? `isFile` says
which paths are files by then. -/
structure IsRetry (file? : τ → Option Path) (isFile : Path → Bool) (failed : List Path)
    (r : Resolution τ) : Prop where
  /-- While none of the places is a file, it is the same miss. -/
  missed : (∀ p ∈ failed, isFile p = false) → r = .notFound failed
  /-- Otherwise the first of the places that is a file is found, and those before it failed. -/
  found : (∃ p ∈ failed, isFile p = true) →
    ∃ before first behind target, failed = before ++ first :: behind ∧
      (∀ p ∈ before, isFile p = false) ∧ isFile first = true ∧
      r = .found target before ∧ file? target = some first
  /-- A miss without a failed probe stays one. -/
  definitive : failed = [] → r = .notFound []

variable {file? : τ → Option Path} {isFile : Path → Bool} {places : List Path} {r : Resolution τ}

theorem isSearch_ofSearch {target : Path → τ} (h : ∀ p, file? (target p) = some p) :
    (ofSearch target (firstFile isFile places)).IsSearch file? isFile places := by
  rw [firstFile_eq]
  refine ⟨?_, rfl⟩
  show ((places.find? isFile).map target).map file? = _
  rw [Option.map_map]
  exact congrArg (fun f => (places.find? isFile).map f) (funext h)

namespace IsSearch

/-- A search in vain has probed all its places, and none of them is a file. -/
theorem of_miss (h : r.IsSearch file? isFile places) (hmiss : r.target = none) :
    r.failed = places ∧ ∀ p ∈ places, isFile p = false := by
  obtain ⟨htarget, hfailed⟩ := h
  rw [hmiss, Option.map_none, eq_comm, Option.map_eq_none_iff, List.find?_eq_none] at htarget
  have hnone : ∀ p ∈ places, isFile p = false := by simpa using htarget
  refine ⟨?_, hnone⟩
  rw [hfailed, List.takeWhile_eq_self_iff]
  simpa using hnone

/-- A search that finds something has found the first of its places that is a file, and probed
those before it. -/
theorem of_hit {t : τ} (h : r.IsSearch file? isFile places) (hhit : r.target = some t) :
    ∃ first behind, places = r.failed ++ first :: behind ∧
      (∀ p ∈ r.failed, isFile p = false) ∧ isFile first = true ∧ file? t = some first := by
  obtain ⟨htarget, hfailed⟩ := h
  rw [hhit, Option.map_some, eq_comm, Option.map_eq_some_iff] at htarget
  obtain ⟨first, hfirst, hfile⟩ := htarget
  obtain ⟨hisFile, before, behind, hplaces, hbefore⟩ := List.find?_eq_some_iff_append.mp hfirst
  have hprobes : r.failed = before := by
    rw [hfailed, hplaces, List.takeWhile_append_of_pos hbefore,
      List.takeWhile_cons_of_neg (by simp [hisFile]), List.append_nil]
  rw [hprobes]
  exact ⟨first, behind, hplaces, by simpa using hbefore, hisFile, hfile.symm⟩

/-- A search that finds something does not get to the places behind. -/
theorem before_others {t : τ} (h : r.IsSearch file? isFile places) (hhit : r.target = some t)
    (others : List Path) : r.IsSearch file? isFile (places ++ others) := by
  obtain ⟨first, behind, hplaces, hbefore, hisFile, hfile⟩ := h.of_hit hhit
  constructor
  case target =>
    have hfind : places.find? isFile = some first :=
      List.find?_eq_some_iff_append.mpr ⟨hisFile, _, _, hplaces, by simpa using hbefore⟩
    rw [hhit, List.find?_append, hfind, Option.some_or, Option.map_some, Option.map_some, hfile]
  case failed =>
    rw [hplaces, List.append_assoc, List.takeWhile_append_of_pos (by simpa using hbefore),
      List.cons_append, List.takeWhile_cons_of_neg (by simp [hisFile]), List.append_nil]

/-- A search in vain that goes on at other places is a search of all of them. -/
theorem behind_miss {others : List Path} {next : Resolution τ}
    (h : r.IsSearch file? isFile places) (hmiss : r.target = none)
    (hnext : next.IsSearch file? isFile others) :
    (⟨next.target, r.failed ++ next.failed⟩ : Resolution τ).IsSearch file? isFile
      (places ++ others) := by
  obtain ⟨hfailed, hnone⟩ := h.of_miss hmiss
  constructor
  case target =>
    have hfind : places.find? isFile = none := List.find?_eq_none.mpr (by simpa using hnone)
    rw [List.find?_append, hfind, Option.none_or, ← hnext.target]
  case failed =>
    rw [List.takeWhile_append_of_pos (by simpa using hnone), ← hnext.failed, ← hfailed]

/-- A search looks its places up again. -/
theorem isRetry (h : r.IsSearch file? isFile places) : r.IsRetry file? isFile places := by
  have hmissed : (∀ p ∈ places, isFile p = false) → r = .notFound places := by
    intro hnone
    cases htarget : r.target with
    | none => rw [notFound, ← htarget, ← (h.of_miss htarget).1]
    | some t =>
      obtain ⟨first, behind, hplaces, -, hisFile, -⟩ := h.of_hit htarget
      rw [hnone first (by simp [hplaces])] at hisFile
      cases hisFile
  constructor
  case missed => exact hmissed
  case found =>
    rintro ⟨p, hp, hisFile⟩
    cases htarget : r.target with
    | none =>
      rw [(h.of_miss htarget).2 p hp] at hisFile
      cases hisFile
    | some t =>
      obtain ⟨first, behind, hplaces, hbefore, hfirst, hfile⟩ := h.of_hit htarget
      exact ⟨r.failed, first, behind, t, hplaces, hbefore, hfirst, by rw [found, ← htarget], hfile⟩
  case definitive =>
    rintro rfl
    exact hmissed (by simp)

end IsSearch

end Resolution

namespace Probing

/-- Where a module is looked for, seen from a directory: at the candidates of its name, and behind
them in the typings cache, if there is one to fall back on. -/
def places (cache : Option Path) (directory : Path) (name : String) : List Path :=
  probes name directory ++ (cache.map (inNodeModules name)).toList

/-- Looking a module up, with the typings cache behind it, is one search. -/
theorem find_isSearch (isFile : Path → Bool) (cache : Option Path) (directory : Path)
    (name : String) :
    (find isFile cache directory name).IsSearch (fun t => some t.file) isFile
      (places cache directory name) := by
  let primary : Resolution ModuleTarget :=
    .ofSearch (fun file => ⟨file, !isRelative name⟩) (firstFile isFile (probes name directory))
  have hprimary : primary.IsSearch (fun t => some t.file) isFile (probes name directory) :=
    Resolution.isSearch_ofSearch fun _ => rfl
  cases htarget : primary.target with
  | some t =>
    have hfind : find isFile cache directory name = primary := by
      simp only [find, primary, htarget]
    rw [hfind]
    exact hprimary.before_others htarget _
  | none =>
    cases cache with
    | none =>
      have hfind : find isFile none directory name = primary := by
        simp only [find, primary, htarget]
      rw [hfind, places, Option.map_none, Option.toList_none, List.append_nil]
      exact hprimary
    | some cache =>
      let next : Resolution ModuleTarget :=
        .ofSearch (fun file => ⟨file, true⟩) (firstFile isFile [inNodeModules name cache])
      have hnext : next.IsSearch (fun t => some t.file) isFile [inNodeModules name cache] :=
        Resolution.isSearch_ofSearch fun _ => rfl
      have hfind : find isFile (some cache) directory name =
          ⟨next.target, primary.failed ++ next.failed⟩ := by
        simp only [find, primary, htarget]
        rfl
      rw [hfind]
      exact hprimary.behind_miss htarget hnext

/-- What a lookup depends on besides the files, the name and the file that the name is in. -/
structure Outlook where
  casePolicy : CasePolicy
  cwd : Path
  executing : Path
  newLine : String
  hasTrace : Bool
  project : Project
  settings : Settings

namespace Outlook

variable (o : Outlook) (m : FileMap) (name file : String)

def around : Surroundings := ⟨m.fileSystem o.casePolicy o.cwd o.executing o.newLine, o.hasTrace⟩

/-- What a module name stands for on these files, with the typings cache behind the loader. -/
def resolveModule : Resolution ModuleTarget :=
  (moduleLoader.resolveOrFallBack (o.around m) o.project o.settings name file).value

/-- What a type reference stands for on these files. -/
def resolveType : Resolution TypeTarget :=
  (typeLoader.ask (o.around m) o.settings name file).value

/-- The places where a module is looked for do not depend on the files. -/
theorem resolveModule_isSearch :
    (o.resolveModule m name file).IsSearch (fun t => some t.file) m.fileExists
      (places o.project.fallbackCache? (directoryOf o.cwd file) name) := by
  rw [resolveModule, resolveOrFallBack_find]
  exact find_isSearch _ _ _ _

/-- The places where a type reference is looked for do not depend on the files. -/
theorem resolveType_isSearch :
    (o.resolveType m name file).IsSearch TypeTarget.file m.fileExists
      ((o.settings.typeRoots.getD defaultTypeRoots).map (inTypeRoot name)) :=
  Resolution.isSearch_ofSearch fun _ => rfl

end Outlook

end Probing

/-- **A miss tells what would undo it.** On any two file maps, whatever else is the same: what is
missed on the first is missed on the second with the same failed probes, unless one of these
is a file there; then the first of them that is one is found, and just those before it failed. This
holds for modules, with the typings cache behind the probing loader, and for type references. -/
theorem miss_tells_retry (o : Probing.Outlook) (name file : String) (m m' : FileMap) :
    (∀ failed, o.resolveModule m name file = .notFound failed →
      (o.resolveModule m' name file).IsRetry (fun t => some t.file) m'.fileExists failed) ∧
    ∀ failed, o.resolveType m name file = .notFound failed →
      (o.resolveType m' name file).IsRetry TypeTarget.file m'.fileExists failed := by
  constructor
  · intro failed hmiss
    have hsearch := o.resolveModule_isSearch m name file
    rw [hmiss] at hsearch
    obtain rfl := (hsearch.of_miss rfl).1
    exact (o.resolveModule_isSearch m' name file).isRetry
  · intro failed hmiss
    have hsearch := o.resolveType_isSearch m name file
    rw [hmiss] at hsearch
    obtain rfl := (hsearch.of_miss rfl).1
    exact (o.resolveType_isSearch m' name file).isRetry

/-- A module that is nowhere at first, and then both in the typings cache and in the project's own
directory; and a type reference that comes to be in the second type root. -/
theorem installed_miss_tells_retry :
    ∃ (o : Probing.Outlook) (m : FileMap) (failed failed' : List Path),
      o = { casePolicy := .sensitive, cwd := Path.ofString "/proj"
            executing := Path.ofString "/bin/tool", newLine := "\n", hasTrace := false
            project := { name := "p", version := "1", autoDiscovery := true
                         typingsCache := some (Path.ofString "/cache") }
            settings := { typeRoots := some [Path.ofString "/a", Path.ofString "/b/../c"] } } ∧
      m = ((FileMap.insert {} (Path.ofString "/cache/node_modules/q/index.d.ts") "").insert
        (Path.ofString "/proj//node_modules/q/index.d.ts") "").insert
        (Path.ofString "/b/../c/q/index.d.ts") "" ∧
      o.resolveModule {} "q" "src/m.ts" = .notFound failed ∧ failed.length = 4 ∧
      (o.resolveModule m "q" "src/m.ts").IsRetry (fun t => some t.file) m.fileExists failed ∧
      (o.resolveModule m "q" "src/m.ts").failed.length = 1 ∧
      o.resolveType {} "q" "src/m.ts" = .notFound failed' ∧ failed'.length = 2 ∧
      (o.resolveType m "q" "src/m.ts").IsRetry TypeTarget.file m.fileExists failed' := by
  refine ⟨_, _, _, _, rfl, rfl, rfl, by decide +kernel, ?_, by decide +kernel, rfl,
    by decide +kernel, ?_⟩
  · exact (miss_tells_retry _ _ _ {} _).1 _ rfl
  · exact (miss_tells_retry _ _ _ {} _).2 _ rfl

end NameResolution
