import NameResolution.Proofs.Cache.Change
import NameResolution.Session

/-!
# Calls of a host

The life of a host is a list of calls. What a host works with is not its own, so every
call comes with the collaborators as they are at that moment: between two calls
files, project and loaders may become anything else. Inside a call a loader is a
function; that is no restriction, since a batch asks for a name at most once.

A request either concerns what the host owns, its caches, its settings and its
recorder, or it is handed on to the collaborators. `Call.recording_run` says all that
a call can do to the recorder.
-/

namespace NameResolution

/-- What a host can be asked for. -/
inductive Request where
  | resolveModules (names : List String) (file : String)
  | resolveTypes (names : List String) (file : String)
  | removeFile (file : String)
  | replaceSettings (settings : Settings)
  | hasCached (file : String)
  /-- What a module name resolves to when no cache is looked at. -/
  | resolveAfresh (name file : String)
  | settings
  | stats
  | startRecording
  | finishRecording
  /-- Anything else: the collaborators answer it by themselves. -/
  | handOn (question : Collaborators → Observed Answer)

/-- A request to a host that works with these collaborators. -/
structure Call where
  around : Collaborators
  request : Request

/-- The answer to a call, with what becomes visible, and the host behind it. -/
def Call.run (call : Call) (h : Host) : Observed Answer × Host :=
  match call.request with
  | .resolveModules names file =>
    let (targets, h) := h.resolveModules call.around names file
    (.modules <$> targets, h)
  | .resolveTypes names file =>
    let (targets, h) := h.resolveTypes call.around names file
    (.types <$> targets, h)
  | .removeFile file =>
    let (done, h) := h.removeFile call.around file
    ((fun _ => .done) <$> done, h)
  | .replaceSettings settings =>
    let (done, h) := h.replaceSettings settings
    ((fun _ => .done) <$> done, h)
  | .hasCached file => (.flag <$> h.hasCached call.around file, h)
  | .resolveAfresh name file => (.resolution <$> h.resolveAfresh call.around name file, h)
  | .settings => (pure (.settings h.settings), h)
  | .stats => (pure (.stats h.modules.stats h.types.stats), h)
  | .startRecording => (pure .done, h.startRecording)
  | .finishRecording =>
    let (keys, h) := h.finishRecording
    (pure (.keys keys), h)
  | .handOn question => (question call.around, h)

/-- The host after calls, the first one first. -/
def Host.after (h : Host) (calls : List Call) : Host :=
  calls.foldl (fun h call => (call.run h).2) h

theorem Host.after_cons (h : Host) (call : Call) (calls : List Call) :
    h.after (call :: calls) = (call.run h).2.after calls := rfl

theorem Host.after_append (h : Host) (calls calls' : List Call) :
    h.after (calls ++ calls') = (h.after calls).after calls' :=
  List.foldl_append

theorem Host.after_concat (h : Host) (calls : List Call) (call : Call) :
    h.after (calls ++ [call]) = (call.run (h.after calls)).2 := h.after_append calls [call]

/-- Every command of a session is a call of its host, or does not concern the host. -/
theorem Session.host_step (s : Session) (command : Command) :
    (s.step command).2.host = s.host ∨
      ∃ request, (s.step command).2.host = (Call.run ⟨s.collaborators, request⟩ s.host).2 := by
  cases command with
  | resolveModules names file => exact .inr ⟨.resolveModules names file, rfl⟩
  | resolveTypes names file => exact .inr ⟨.resolveTypes names file, rfl⟩
  | startRecording => exact .inr ⟨.startRecording, rfl⟩
  | finishRecording => exact .inr ⟨.finishRecording, rfl⟩
  | notifyRemoved file => exact .inr ⟨.removeFile file, rfl⟩
  | replaceSettings source =>
    cases hread : source.read with
    | error e => exact .inl (by simp only [step, hread])
    | ok settings => exact .inr ⟨.replaceSettings settings, by simp only [step, hread]; rfl⟩
  | _ => exact .inl rfl

/-! ## The recorder -/

/-- Does a batch of modules bring news: a name that the file's entry does not know, or a provisional
miss of the entry that the loader now has a target for? -/
def Host.hasNews (h : Host) (c : Collaborators) (names : List String) (file : String) : Bool :=
  names.any fun n =>
    match (h.modules.entry (c.keyOf file).value).get? n with
    | none => true
    | some r =>
      r.target.isNone && !r.failed.isEmpty && (h.resolveAfresh c n file).value.target.isSome

/-- The file that a call brings news of. -/
def Call.newsOf? (call : Call) (h : Host) : Option CanonicalKey :=
  match call.request with
  | .resolveModules names file =>
    if h.hasNews call.around names file then some (call.around.keyOf file).value else none
  | _ => none

/-- The flag of a module batch says whether the batch has news. -/
theorem Host.changed_eq_hasNews (h : Host) (c : Collaborators) (names : List String)
    (file : String) :
    (h.modules.resolveNames (c.keyOf file).value names
        (fun n state => (h.resolveAfresh c n file, state)) ()).1.value.changed =
      h.hasNews c names file := by
  let load : Loader Unit ModuleTarget := fun n state => (h.resolveAfresh c n file, state)
  have hload : ∀ n state, (load n state).1.value = (h.resolveAfresh c n file).value :=
    fun _ _ => rfl
  rw [Bool.eq_iff_iff, Cache.resolveNames_changed, hasNews, List.any_eq_true]
  refine exists_congr fun n => and_congr_right fun hn => ?_
  refine (isNews_rebuilt hload () hn).trans ?_
  cases (h.modules.entry (c.keyOf file).value).get? n with
  | none => simp
  | some r => simp [Resolution.isReusable]

/-- Does the request start or stop the recorder? -/
def Request.isMark : Request → Bool
  | .startRecording | .finishRecording => true
  | _ => false

/-- What a call does to the recorder: it starts or stops it, or adds the file it brings news of. -/
theorem Call.recording_run (call : Call) (h : Host) :
    (call.run h).2.recording =
      match call.request with
      | .startRecording => some []
      | .finishRecording => none
      | _ => h.recording.map (· ++ (call.newsOf? h).toList) := by
  obtain ⟨c, request⟩ := call
  cases request with
  | resolveModules names file =>
    show (if (h.modules.resolveNames (c.keyOf file).value names
        (fun n state => (h.resolveAfresh c n file, state)) ()).1.value.changed
      then h.recording.map (· ++ [(c.keyOf file).value]) else h.recording) = _
    rw [h.changed_eq_hasNews, newsOf?]
    cases hnews : h.hasNews c names file <;> simp [hnews]
  | startRecording => rfl
  | finishRecording => rfl
  | _ => simp [run, newsOf?, Host.resolveTypes, Host.removeFile, Host.replaceSettings]

/-- A call that neither starts nor stops recording adds its news, while the host records. -/
theorem Call.recording_run_of_not_isMark (call : Call) (h : Host)
    (hmark : call.request.isMark = false) :
    (call.run h).2.recording = h.recording.map (· ++ (call.newsOf? h).toList) := by
  rw [recording_run]
  cases hrequest : call.request <;> simp_all [Request.isMark]

end NameResolution
