import Mathlib.Data.List.Induction
import NameResolution.Proofs.Session.Run

/-!
# When a miss is out of date

A host gives a miss out again without a new probe when nothing was probed for it. A
malformed name is never probed by the loader itself, but it is looked for in the
typings cache, once there is one to fall back on. Its miss is then out of date: the
host keeps on answering that there is nothing, and a resolver without a cache finds
the typings.

That is the only way to a miss that is out of date. A miss that stands in an entry
without a probe is of a malformed name, and was made by a batch at a time without
a typings cache (`miss_of_entry`); every other miss is looked up anew.
-/

namespace NameResolution

namespace Session

/-- Was the name in an earlier batch for the file, at a time without a typings cache to fall back
on? -/
def MissedUnaided (s : Session) (earlier : List Command) (key : CanonicalKey) (n : String) : Prop :=
  ∃ before names file rest, earlier = before ++ .resolveModules names file :: rest ∧ n ∈ names ∧
    (s.after before).keyOf file = key ∧ (s.after before).project.fallbackCache? = none

/-- A name that was missed unaided was so before any further command. -/
theorem MissedUnaided.concat {s : Session} {earlier : List Command} {key : CanonicalKey}
    {n : String} (h : s.MissedUnaided earlier key n) (command : Command) :
    s.MissedUnaided (earlier ++ [command]) key n := by
  obtain ⟨before, names, file, rest, rfl, hn, hkey, hcache⟩ := h
  exact ⟨before, names, file, rest ++ [command], by simp, hn, hkey, hcache⟩

theorem loaders_after {s : Session} (h : s.loaders = .probing) (earlier : List Command) :
    (s.after earlier).loaders = .probing := by
  induction earlier using List.reverseRecOn with
  | nil => exact h
  | append_singleton earlier command ih =>
    rw [after_concat]
    exact loaders_step ih command

/-- A miss that stands in an entry without a probe is of a malformed name, and goes back to a batch
at a time without a typings cache. -/
theorem miss_of_entry {s : Session} {settings : Settings} (hloaders : s.loaders = .probing)
    (hnew : s.host = Host.new settings) (earlier : List Command) {key : CanonicalKey} {n : String}
    (h : ((s.after earlier).host.modules.entry key).get? n = some (.notFound [])) :
    Probing.isMalformed n = true ∧ s.MissedUnaided earlier key n := by
  induction earlier using List.reverseRecOn with
  | nil =>
    rw [after, List.foldl_nil, hnew] at h
    cases h
  | append_singleton earlier command ih =>
    rw [after_concat] at h
    rcases modules_of_step h with hold | ⟨names, file, rfl, hkey, hn, hfound⟩
    · exact ⟨(ih hold).1, (ih hold).2.concat command⟩
    -- a miss made now, without a probe: the name had no candidates and there was no typings cache
    · rw [moduleAfresh_eq (loaders_after hloaders earlier)] at hfound
      obtain ⟨hmalformed, hcache⟩ := Probing.isMalformed_of_find hfound.symm
      exact ⟨hmalformed, earlier, names, file, [], rfl, hn, hkey, hcache⟩

/-- What a batch of modules ends with for the names of its file. -/
def rebuiltModules (s : Session) (names : List String) (file : String) : Entry ModuleTarget :=
  (s.host.modules.entry (s.keyOf file)).rebuilt names
    (fun n state => (s.host.resolveAfresh s.collaborators n file, state)) ()

/-- A slot of a batch's answer holds what the rebuilt entry says of its name. -/
theorem slot_eq {s : Session} {names : List String} {file n : String}
    {targets : List (Option ModuleTarget)} {i : Nat}
    (hanswer : (s.step (.resolveModules names file)).1.value = .modules targets)
    (hname : names[i]? = some n) :
    targets[i]? = ((s.rebuiltModules names file).get? n).map Resolution.target := by
  rw [← Answer.modules.inj hanswer]
  exact Cache.resolveNames_slot s.host.modules (s.keyOf file) names _ () hname

/-- An empty slot in the answer of a batch of modules is a miss that the file's entry held without
a probe, or one that was made just now. -/
theorem miss_of_slot {s : Session} {names : List String} {file n : String}
    {targets : List (Option ModuleTarget)} {i : Nat}
    (hanswer : (s.step (.resolveModules names file)).1.value = .modules targets)
    (hname : names[i]? = some n) (hslot : targets[i]? = some none) :
    (s.host.modules.entry (s.keyOf file)).get? n = some (.notFound []) ∨
      (s.moduleAfresh n file).target = none := by
  rw [slot_eq hanswer hname] at hslot
  obtain ⟨r, hr, htarget⟩ := Option.map_eq_some_iff.mp hslot
  rcases rebuilt_origin _ _ _ _ hr with ⟨hold, hreuse⟩ | ⟨-, _, rfl⟩
  · left
    have hfailed : r.failed = [] := by simpa [Resolution.isReusable, htarget] using hreuse
    rw [hold, Resolution.notFound, ← htarget, ← hfailed]
  · exact .inr htarget

/-- A miss that the file's entry holds without a probe is given out again. -/
theorem slot_of_miss {s : Session} {names : List String} {file n : String} (hn : n ∈ names)
    (hentry : (s.host.modules.entry (s.keyOf file)).get? n = some (.notFound [])) :
    ∃ (targets : List (Option ModuleTarget)) (i : Nat),
      (s.step (.resolveModules names file)).1.value = .modules targets ∧
        names[i]? = some n ∧ targets[i]? = some none := by
  obtain ⟨i, hi⟩ := List.mem_iff_getElem?.mp hn
  have hkept : (s.rebuiltModules names file).get? n = some (.notFound []) :=
    rebuilt_kept _ _ hentry rfl hn
  refine ⟨_, i, rfl, hi, ?_⟩
  rw [slot_eq rfl hi, hkept]
  rfl

end Session

/-- **When a host's miss is out of date.** After any run, a batch answers that there is nothing
for a name that a resolver without a cache would find at that moment, exactly when the name is
malformed, the file's entry holds a miss of it that nothing was probed for, made by a batch at a
time without a typings cache to fall back on, and there now is a typings cache with a file for the
name. -/
theorem stale_miss_iff {s : Session} {settings : Settings} (hloaders : s.loaders = .probing)
    (hnew : s.host = Host.new settings) (earlier : List Command) (names : List String)
    (file n : String) :
    (∃ (targets : List (Option ModuleTarget)) (i : Nat),
        ((s.after earlier).step (.resolveModules names file)).1.value = .modules targets ∧
          names[i]? = some n ∧ targets[i]? = some none ∧
          ((s.after earlier).moduleAfresh n file).target.isSome = true) ↔
      n ∈ names ∧ Probing.isMalformed n = true ∧
        ((s.after earlier).host.modules.entry ((s.after earlier).keyOf file)).get? n =
          some (.notFound []) ∧
        s.MissedUnaided earlier ((s.after earlier).keyOf file) n ∧
        ∃ place, (s.after earlier).project.fallbackCache? = some place ∧
          (s.after earlier).files.fileExists (Probing.inNodeModules n place) = true := by
  -- what a resolver without a cache finds at that moment
  have hafresh := Session.moduleAfresh_eq (Session.loaders_after hloaders earlier) n file
  constructor
  · rintro ⟨targets, i, hanswer, hname, hslot, hfound⟩
    have hentry := (Session.miss_of_slot hanswer hname hslot).resolve_right fun hnone => by
      rw [hnone] at hfound
      cases hfound
    obtain ⟨hmalformed, hmissed⟩ := Session.miss_of_entry hloaders hnew earlier hentry
    rw [hafresh, Probing.find_of_isMalformed hmalformed] at hfound
    exact ⟨List.mem_of_getElem? hname, hmalformed, hentry, hmissed, hfound⟩
  · rintro ⟨hn, hmalformed, hentry, -, hfound⟩
    obtain ⟨targets, i, hanswer, hname, hslot⟩ := Session.slot_of_miss hn hentry
    rw [← Probing.find_of_isMalformed hmalformed, ← hafresh] at hfound
    exact ⟨targets, i, hanswer, hname, hslot, hfound⟩

/-- The typings of a malformed name are there from the start. The name is missed while they must
not be fallen back on, and stays missed when they may. -/
theorem wildcard_stale_miss :
    ∃ (s : Session) (earlier : List Command),
      s = Session.probing
        (FileMap.insert {} (Path.ofString "/cache/typings/node_modules/bad*name/index.d.ts") "")
        { name := "p", version := "1", typingsCache := some (Path.ofString "/cache/typings") } ∧
      earlier = [.resolveModules ["bad*name"] "/proj/src/main.ts", .setAutoDiscovery true] ∧
      s.loaders = .probing ∧ s.host = Host.new {} ∧
      ∃ (targets : List (Option ModuleTarget)) (i : Nat),
        ((s.after earlier).step (.resolveModules ["bad*name"] "/proj/src/main.ts")).1.value =
            .modules targets ∧
          ["bad*name"][i]? = some "bad*name" ∧ targets[i]? = some none ∧
          ((s.after earlier).moduleAfresh "bad*name" "/proj/src/main.ts").target.isSome = true := by
  refine ⟨_, _, rfl, rfl, rfl, rfl, ?_⟩
  refine (stale_miss_iff rfl rfl _ _ _ _).mpr
    ⟨by simp, by decide +kernel, by decide +kernel, ?_, ?_⟩
  · exact ⟨[], _, _, _, rfl, by simp, rfl, rfl⟩
  · exact ⟨_, rfl, by decide +kernel⟩

end NameResolution
