import Mathlib.Data.List.Induction
import NameResolution.Proofs.Host.Calls
import NameResolution.Proofs.Session.Run

/-!
# What the recorder lists

A host that is told to record notes the files whose module resolutions changed, until it is
told to stop. What it lists can be read off its calls alone, place by place: a file
is listed for a batch of modules that brought news, when the last call before it that
started or stopped the recorder was a start, and none came behind it
(`finish_lists_news`).

News are new names, and provisional misses that have a target now. So a file that gains or
loses an unresolved name among the names of a batch is noted
(`records_gained_and_lost`); one that only drops an unresolved name is not
(`dropped_miss_is_not_recorded`).
-/

namespace NameResolution

/-- The places of a list: what stands before a value, the value, and what stands behind it. -/
def places {α : Type _} : List α → List (List α × α × List α)
  | [] => []
  | a :: l => ([], a, l) :: (places l).map fun (before, b, behind) => (a :: before, b, behind)

/-- The last place of a longer list is its new end; what is behind the others grows. -/
theorem places_concat {α : Type _} (l : List α) (a : α) :
    places (l ++ [a]) =
      (places l).map (fun (before, b, behind) => (before, b, behind ++ [a])) ++ [(l, a, [])] := by
  induction l with
  | nil => rfl
  | cons b l ih => simp [places, ih]

/-- Was the recorder last started, rather than stopped or left alone? -/
def isRecording (calls : List Call) : Bool :=
  match calls.reverse.find? fun call => call.request.isMark with
  | some ⟨_, .startRecording⟩ => true
  | _ => false

/-- Whether calls leave a host recording is up to the last mark. -/
theorem isRecording_concat (calls : List Call) (call : Call) :
    isRecording (calls ++ [call]) =
      match call.request with
      | .startRecording => true
      | .finishRecording => false
      | _ => isRecording calls := by
  obtain ⟨c, request⟩ := call
  unfold isRecording
  rw [List.reverse_concat, List.find?_cons]
  cases request <;> rfl

/-- The file that a call brings news of, at a place where the recorder is on and stays on. -/
def Host.newsAt? (h : Host) : List Call × Call × List Call → Option CanonicalKey
  | (before, call, behind) =>
    if isRecording before && behind.all (!·.request.isMark) then call.newsOf? (h.after before)
    else none

/-- The files that the calls brought news of since the recorder was last started, in their order
and once for each call; none when it was stopped since. -/
def Host.newsSinceStart (h : Host) (calls : List Call) : List CanonicalKey :=
  (places calls).filterMap h.newsAt?

/-- A mark drops the news since the last start, any other call adds its own. -/
theorem Host.newsSinceStart_concat (h : Host) (calls : List Call) (call : Call) :
    h.newsSinceStart (calls ++ [call]) =
      if call.request.isMark then []
      else h.newsSinceStart calls ++
        if isRecording calls then (call.newsOf? (h.after calls)).toList else [] := by
  unfold newsSinceStart
  rw [places_concat, List.filterMap_append, List.filterMap_map]
  cases hmark : call.request.isMark with
  | true =>
    -- a mark cuts off what came before it, and is no batch itself
    have hnone : call.newsOf? (h.after calls) = none := by
      unfold Call.newsOf?
      cases hrequest : call.request <;> simp_all [Request.isMark]
    simp [Function.comp_def, newsAt?, hmark, hnone]
  | false =>
    have hlast : [(calls, call, [])].filterMap h.newsAt? =
        if isRecording calls then (call.newsOf? (h.after calls)).toList else [] := by
      cases harmed : isRecording calls <;> cases hnews : call.newsOf? (h.after calls) <;>
        simp [newsAt?, harmed, hnews]
    rw [hlast, if_neg Bool.false_ne_true]
    congr 2
    funext place
    simp [newsAt?, hmark]

/-- While it records, the recorder holds the news since its start; otherwise there are none. -/
theorem recording_after (settings : Settings) (calls : List Call) :
    ((Host.new settings).after calls).recording =
        (if isRecording calls then some ((Host.new settings).newsSinceStart calls) else none) ∧
      (isRecording calls = false → (Host.new settings).newsSinceStart calls = []) := by
  induction calls using List.reverseRecOn with
  | nil => exact ⟨rfl, fun _ => rfl⟩
  | append_singleton calls call ih =>
    obtain ⟨hrecording, hnone⟩ := ih
    rw [Host.after_concat, Call.recording_run, isRecording_concat, Host.newsSinceStart_concat,
      hrecording]
    cases hrequest : call.request with
    | startRecording => simp [Request.isMark]
    | finishRecording => simp [Request.isMark]
    | _ =>
      cases harmed : isRecording calls with
      | true => simp [Request.isMark]
      | false => simp [Request.isMark, hnone harmed]

/-- **What the recorder lists.** Whatever a host was asked before, when it stops recording it lists
the files of just those batches of modules since the last start that brought a name which the
file's entry did not know at that moment, or found a target for a provisional miss of it: one key
for each such batch, in the order of the calls, and none when no start came after the last stop. -/
theorem finish_lists_news (settings : Settings) (calls : List Call) (c : Collaborators) :
    (Call.run ⟨c, .finishRecording⟩ ((Host.new settings).after calls)).1.value =
      .keys ((Host.new settings).newsSinceStart calls) := by
  obtain ⟨hrecording, hnone⟩ := recording_after settings calls
  show Answer.keys (((Host.new settings).after calls).recording.getD []) = _
  rw [hrecording]
  cases harmed : isRecording calls with
  | true => rfl
  | false => rw [hnone harmed]; rfl

/-! ## Unresolved names -/

/-- **Gained and lost unresolved names are recorded.** While a host records, a batch of modules
notes its file if the file has another set of unresolved names behind the batch than before, the
names that the batch no longer has left aside. -/
theorem records_gained_and_lost {h : Host} {keys : List CanonicalKey}
    (harmed : h.recording = some keys) (c : Collaborators) (names : List String) (file : String)
    (hdiffer : {n ∈ (h.modules.entry (c.keyOf file).value).unresolved | n ∈ names} ≠
      ((h.resolveModules c names file).2.modules.entry (c.keyOf file).value).unresolved) :
    (h.resolveModules c names file).2.recording = some (keys ++ [(c.keyOf file).value]) := by
  let load : Loader Unit ModuleTarget := fun n state => (h.resolveAfresh c n file, state)
  have hrun := Call.recording_run ⟨c, .resolveModules names file⟩ h
  have hentry : (h.resolveModules c names file).2.modules.entry (c.keyOf file).value =
      (h.modules.entry (c.keyOf file).value).rebuilt names load () := by
    show (Cache.entry (h.modules.resolveNames (c.keyOf file).value names load ()).2.1 _) = _
    rw [Cache.entry, Cache.resolveNames_files, if_pos rfl]
    rfl
  -- without news the two sets would be the same
  have hnews : h.hasNews c names file = true := by
    by_contra hno
    rw [← h.changed_eq_hasNews, Cache.resolveNames_changed] at hno
    rw [hentry, unresolved_rebuilt hno] at hdiffer
    exact hdiffer rfl
  show (Call.run ⟨c, .resolveModules names file⟩ h).2.recording = _
  rw [hrun, harmed]
  simp [Call.newsOf?, hnews]

/-- What a host in `/proj` without any file works with. -/
def Collaborators.bare : Collaborators :=
  (Session.probing {} { name := "p", version := "1" }).collaborators

/-- A name is missed, then the recorder is started. -/
def missThenStart : List Call :=
  [⟨.bare, .resolveModules ["./later"] "/proj/src/main.ts"⟩, ⟨.bare, .startRecording⟩]

/-- The file of the missed name now has a new unresolved name, and one that it had already. -/
theorem second_miss_is_recorded :
    ∃ (h : Host) (c : Collaborators) (key : CanonicalKey),
      h = (Host.new {}).after missThenStart ∧ c = .bare ∧ key = ⟨"/proj/src/main.ts".toList⟩ ∧
      h.recording = some [] ∧
      {n ∈ (h.modules.entry (c.keyOf "src/main.ts").value).unresolved |
          n ∈ ["./later", "./other"]} ≠
        ((h.resolveModules c ["./later", "./other"] "src/main.ts").2.modules.entry
          (c.keyOf "src/main.ts").value).unresolved ∧
      (h.resolveModules c ["./later", "./other"] "src/main.ts").2.recording =
        some ([] ++ [(c.keyOf "src/main.ts").value]) := by
  have harmed : ((Host.new {}).after missThenStart).recording = some [] := by decide +kernel
  have hdiffer : {n ∈ (((Host.new {}).after missThenStart).modules.entry
        (Collaborators.bare.keyOf "src/main.ts").value).unresolved | n ∈ ["./later", "./other"]} ≠
      ((((Host.new {}).after missThenStart).resolveModules .bare ["./later", "./other"]
        "src/main.ts").2.modules.entry
        (Collaborators.bare.keyOf "src/main.ts").value).unresolved := by
    intro hsame
    -- the new name is unresolved behind the batch only
    have hbehind : ((((Host.new {}).after missThenStart).resolveModules .bare
        ["./later", "./other"] "src/main.ts").2.modules.entry
        (Collaborators.bare.keyOf "src/main.ts").value).isUnresolved "./other" = true := by
      decide +kernel
    have hbefore : (((Host.new {}).after missThenStart).modules.entry
        (Collaborators.bare.keyOf "src/main.ts").value).isUnresolved "./other" = false := by
      decide +kernel
    have hmem := (Set.ext_iff.mp hsame "./other").mpr (Entry.mem_unresolved_iff.mpr hbehind)
    rw [Entry.mem_unresolved_iff.mp hmem.1] at hbefore
    cases hbefore
  exact ⟨_, _, _, rfl, rfl, rfl, harmed, hdiffer,
    records_gained_and_lost harmed _ _ _ hdiffer⟩

/-- **A dropped miss is not recorded.** A file with a missed name is given an empty batch while the
host records: it loses its unresolved name, and is not noted. -/
theorem dropped_miss_is_not_recorded :
    ¬ ∀ (settings : Settings) (calls : List Call) (keys : List CanonicalKey) (c : Collaborators)
        (names : List String) (file : String),
      ((Host.new settings).after calls).recording = some keys →
      ((Host.new settings).after calls).modules.contains (c.keyOf file).value = true →
      (((Host.new settings).after calls).modules.entry (c.keyOf file).value).unresolved ≠
        ((((Host.new settings).after calls).resolveModules c names file).2.modules.entry
          (c.keyOf file).value).unresolved →
      (((Host.new settings).after calls).resolveModules c names file).2.recording =
        some (keys ++ [(c.keyOf file).value]) := by
  intro hclaim
  have hrecorded := hclaim {} missThenStart [] .bare [] "/proj/src/main.ts" (by decide +kernel)
    (by decide +kernel) ?_
  · have hempty : (((Host.new {}).after missThenStart).resolveModules .bare []
        "/proj/src/main.ts").2.recording = some [] := by decide +kernel
    rw [hempty] at hrecorded
    cases hrecorded
  · intro hsame
    have hbefore : (((Host.new {}).after missThenStart).modules.entry
        (Collaborators.bare.keyOf "/proj/src/main.ts").value).isUnresolved "./later" = true := by
      decide +kernel
    have hbehind : ((((Host.new {}).after missThenStart).resolveModules .bare []
        "/proj/src/main.ts").2.modules.entry
        (Collaborators.bare.keyOf "/proj/src/main.ts").value).isUnresolved "./later" = false := by
      decide +kernel
    have hmem := (Set.ext_iff.mp hsame "./later").mp (Entry.mem_unresolved_iff.mpr hbefore)
    rw [Entry.mem_unresolved_iff.mp hmem] at hbehind
    cases hbehind

end NameResolution
