import Mathlib.Data.List.Induction
import NameResolution.Proofs.Host.Calls

/-!
# What a host forgets

Replacing the settings drops everything a host knows, removing a file drops what it knows
of that file, and nothing of what was dropped shows later (`answers_as_never_asked`): from
there on a host answers every call, and asks its loaders, as one that never knew it.

This compares two hosts call by call. Hosts that know the same (`Host.KnowsSame`) answer
alike and go on to know the same. Towards a removal, the other host has left out the
batches of one file; there the first knows what the other knows, and besides that only
something of the one file (`Host.KnowsBut`). Neither relation speaks of the counters or
the recorder.
-/

namespace NameResolution

variable {σ τ : Type}

/-! ## Caches -/

/-- Do two caches hold the same entries, whatever they have counted? -/
structure Cache.KnowsSame (c c' : Cache τ) : Prop where
  label : c.label = c'.label
  files : c.files = c'.files

/-- Does a cache hold the entries of another, and at most one more, under this key? -/
structure Cache.KnowsBut (key : CanonicalKey) (c c' : Cache τ) : Prop where
  label : c.label = c'.label
  files : c.files.erase key = c'.files

namespace Cache

variable {c c' : Cache τ} {key : CanonicalKey} {load load' : Loader σ τ}

/-- Caches that know the same answer a batch alike, and know the same behind it. -/
theorem KnowsSame.resolveNames [Target τ] (hsame : c.KnowsSame c') (hload : load = load')
    (k : CanonicalKey) (names : List String) (state : σ) :
    (c.resolveNames k names load state).1 = (c'.resolveNames k names load' state).1 ∧
      (c.resolveNames k names load state).2.1.KnowsSame
        (c'.resolveNames k names load' state).2.1 := by
  obtain ⟨label, files, stats⟩ := c
  obtain ⟨label', files', stats'⟩ := c'
  obtain ⟨rfl, rfl⟩ := hsame
  subst hload
  exact ⟨rfl, rfl, rfl⟩

theorem KnowsSame.contains (hsame : c.KnowsSame c') (k : CanonicalKey) :
    c.contains k = c'.contains k := by
  unfold Cache.contains
  rw [hsame.files]

/-- Removing a file from caches that know the same says the same, and leaves them knowing the same.
-/
theorem KnowsSame.remove (hsame : c.KnowsSame c') (k : CanonicalKey) :
    (c.remove k).1 = (c'.remove k).1 ∧ (c.remove k).2.KnowsSame (c'.remove k).2 := by
  unfold Cache.remove
  rw [hsame.contains k, hsame.label]
  split
  next =>
    refine ⟨rfl, rfl, ?_⟩
    show c.files.erase k = c'.files.erase k
    rw [hsame.files]
  next => exact ⟨rfl, hsame⟩

/-- Clearing caches that know the same says the same, and leaves them knowing the same. -/
theorem KnowsSame.clear (hsame : c.KnowsSame c') :
    c.clear.1 = c'.clear.1 ∧ c.clear.2.KnowsSame c'.clear.2 := by
  unfold Cache.clear
  rw [hsame.label, hsame.files]
  exact ⟨rfl, rfl, rfl⟩

/-- Removing a file takes its entry away, if there is one. -/
theorem remove_files_eq (c : Cache τ) (k : CanonicalKey) :
    (c.remove k).2.files = c.files.erase k := by
  unfold remove
  split
  next => rfl
  next h =>
    have hnone : c.files.get? k = none := by simpa [contains, Table.contains] using h
    exact (Table.erase_of_get?_none hnone).symm

/-- A batch for another file finds the same entry in both caches, and leaves the same. -/
theorem KnowsBut.resolveNames [Target τ] (hbut : c.KnowsBut key c') (hload : load = load')
    {k : CanonicalKey} (hk : k ≠ key) (names : List String) (state : σ) :
    (c.resolveNames k names load state).2.1.KnowsBut key
      (c'.resolveNames k names load' state).2.1 := by
  have hentry : c.entry k = c'.entry k := by
    unfold entry
    rw [← hbut.files, Table.get?_erase, if_neg fun he => hk he.symm]
  refine ⟨hbut.label, ?_⟩
  show (c.files.insert k ((c.entry k).rebuilt names load state)).erase key =
    c'.files.insert k ((c'.entry k).rebuilt names load' state)
  rw [Table.erase_insert, if_neg hk, hbut.files, hentry, hload]

/-- A batch for the file itself leaves nothing else behind. -/
theorem KnowsBut.resolveNames_self [Target τ] (hbut : c.KnowsBut key c') (names : List String)
    (load : Loader σ τ) (state : σ) :
    (c.resolveNames key names load state).2.1.KnowsBut key c' := by
  refine ⟨hbut.label, ?_⟩
  show (c.files.insert key ((c.entry key).rebuilt names load state)).erase key = c'.files
  rw [Table.erase_insert, if_pos rfl, hbut.files]

/-- Removing any file keeps a cache knowing at most one file more. -/
theorem KnowsBut.remove (hbut : c.KnowsBut key c') (k : CanonicalKey) :
    (c.remove k).2.KnowsBut key (c'.remove k).2 := by
  refine ⟨?_, ?_⟩
  · rw [remove_label, remove_label, hbut.label]
  · rw [remove_files_eq, remove_files_eq, Table.erase_comm, hbut.files]

/-- Clearing keeps a cache knowing at most one file more. -/
theorem KnowsBut.clear (hbut : c.KnowsBut key c') : c.clear.2.KnowsBut key c'.clear.2 :=
  ⟨hbut.label, rfl⟩

/-- Without the one entry, the caches hold the same. -/
theorem KnowsBut.remove_self (hbut : c.KnowsBut key c') : (c.remove key).2.KnowsSame c' := by
  refine ⟨?_, ?_⟩
  · rw [remove_label, hbut.label]
  · rw [remove_files_eq, hbut.files]

end Cache

/-! ## Hosts that know the same -/

/-- Do two hosts have the same settings and the same entries, whatever they have counted or
recorded? -/
structure Host.KnowsSame (h h' : Host) : Prop where
  settings : h.settings = h'.settings
  modules : h.modules.KnowsSame h'.modules
  types : h.types.KnowsSame h'.types

/-- Does the answer tell what the host counted or recorded? -/
def Request.isReport : Request → Bool
  | .stats | .finishRecording => true
  | _ => false

namespace Host.KnowsSame

variable {h h' : Host}

/-- Hosts that know the same resolve a name afresh alike. -/
theorem resolveAfresh (hsame : h.KnowsSame h') (c : Collaborators) (name file : String) :
    h.resolveAfresh c name file = h'.resolveAfresh c name file := by
  unfold Host.resolveAfresh
  rw [hsame.settings]

/-- A batch of modules is answered alike, asks the loader alike, and leaves the same behind. -/
theorem resolveModules (hsame : h.KnowsSame h') (c : Collaborators) (names : List String)
    (file : String) :
    (h.resolveModules c names file).1 = (h'.resolveModules c names file).1 ∧
      (h.resolveModules c names file).2.KnowsSame (h'.resolveModules c names file).2 := by
  have hload : (fun name (state : Unit) => (h.resolveAfresh c name file, state)) =
      fun name state => (h'.resolveAfresh c name file, state) := by
    funext name state
    rw [hsame.resolveAfresh]
  obtain ⟨hbatch, hmodules⟩ := hsame.modules.resolveNames hload (c.keyOf file).value names ()
  refine ⟨?_, hsame.settings, hmodules, hsame.types⟩
  exact congrArg (fun batch : Observed (Batch ModuleTarget) =>
    (⟨batch.value.targets, (c.keyOf file).seen ++ batch.seen⟩ : Observed _)) hbatch

/-- A batch of type references is answered alike, asks the loader alike, and leaves the same
behind. -/
theorem resolveTypes (hsame : h.KnowsSame h') (c : Collaborators) (names : List String)
    (file : String) :
    (h.resolveTypes c names file).1 = (h'.resolveTypes c names file).1 ∧
      (h.resolveTypes c names file).2.KnowsSame (h'.resolveTypes c names file).2 := by
  have hload : (fun name (state : Unit) =>
        (c.typeLoader.ask c.surroundings h.settings name file, state)) =
      fun name state => (c.typeLoader.ask c.surroundings h'.settings name file, state) := by
    rw [hsame.settings]
  obtain ⟨hbatch, htypes⟩ := hsame.types.resolveNames hload (c.keyOf file).value names ()
  refine ⟨?_, hsame.settings, hsame.modules, htypes⟩
  exact congrArg (fun batch : Observed (Batch TypeTarget) =>
    (⟨batch.value.targets, (c.keyOf file).seen ++ batch.seen⟩ : Observed _)) hbatch

theorem removeFile (hsame : h.KnowsSame h') (c : Collaborators) (file : String) :
    (h.removeFile c file).1 = (h'.removeFile c file).1 ∧
      (h.removeFile c file).2.KnowsSame (h'.removeFile c file).2 := by
  obtain ⟨hdropped, hmodules⟩ := hsame.modules.remove (c.keyOf file).value
  obtain ⟨hdropped', htypes⟩ := hsame.types.remove (c.keyOf file).value
  refine ⟨?_, hsame.settings, hmodules, htypes⟩
  exact congrArg₂ (fun modules types : Observed Bool =>
    (⟨(), (c.keyOf file).seen ++ .logged (.fileRemoved (c.keyOf file).value) ::
      (modules.seen ++ types.seen)⟩ : Observed Unit)) hdropped hdropped'

theorem replaceSettings (hsame : h.KnowsSame h') (settings : Settings) :
    (h.replaceSettings settings).1 = (h'.replaceSettings settings).1 ∧
      (h.replaceSettings settings).2.KnowsSame (h'.replaceSettings settings).2 := by
  obtain ⟨hcleared, hmodules⟩ := hsame.modules.clear
  obtain ⟨hcleared', htypes⟩ := hsame.types.clear
  refine ⟨?_, rfl, hmodules, htypes⟩
  exact congrArg₂ (fun modules types : Observed Unit =>
    (⟨(), .logged .settingsReplaced :: (modules.seen ++ types.seen)⟩ : Observed Unit))
    hcleared hcleared'

theorem hasCached (hsame : h.KnowsSame h') (c : Collaborators) (file : String) :
    h.hasCached c file = h'.hasCached c file := by
  unfold Host.hasCached
  simp only [hsame.modules.contains, hsame.types.contains]

/-- Hosts that know the same give the same answer to a call, unless it asks what they counted or
recorded, and know the same behind it. -/
theorem run (hsame : h.KnowsSame h') (call : Call) :
    (call.request.isReport = false → (call.run h).1 = (call.run h').1) ∧
      (call.run h).2.KnowsSame (call.run h').2 := by
  obtain ⟨c, request⟩ := call
  cases request with
  | resolveModules names file =>
    obtain ⟨hanswer, hbehind⟩ := hsame.resolveModules c names file
    exact ⟨fun _ => congrArg (Answer.modules <$> ·) hanswer, hbehind⟩
  | resolveTypes names file =>
    obtain ⟨hanswer, hbehind⟩ := hsame.resolveTypes c names file
    exact ⟨fun _ => congrArg (Answer.types <$> ·) hanswer, hbehind⟩
  | removeFile file =>
    obtain ⟨hdone, hbehind⟩ := hsame.removeFile c file
    exact ⟨fun _ => congrArg ((fun _ => Answer.done) <$> ·) hdone, hbehind⟩
  | replaceSettings settings =>
    obtain ⟨hdone, hbehind⟩ := hsame.replaceSettings settings
    exact ⟨fun _ => congrArg ((fun _ => Answer.done) <$> ·) hdone, hbehind⟩
  | hasCached file => exact ⟨fun _ => congrArg (Answer.flag <$> ·) (hsame.hasCached c file), hsame⟩
  | resolveAfresh name file =>
    exact ⟨fun _ => congrArg (Answer.resolution <$> ·) (hsame.resolveAfresh c name file), hsame⟩
  | settings => exact ⟨fun _ => congrArg (fun s => pure (Answer.settings s)) hsame.settings, hsame⟩
  | stats => exact ⟨nofun, hsame⟩
  | startRecording => exact ⟨fun _ => rfl, hsame.settings, hsame.modules, hsame.types⟩
  | finishRecording => exact ⟨nofun, hsame.settings, hsame.modules, hsame.types⟩
  | handOn question => exact ⟨fun _ => rfl, hsame⟩

/-- Hosts that know the same know the same behind any calls. -/
theorem after (hsame : h.KnowsSame h') (rest : List Call) :
    (h.after rest).KnowsSame (h'.after rest) := by
  induction rest generalizing h h' with
  | nil => exact hsame
  | cons call rest ih => exact ih (hsame.run call).2

theorem newsOf? (hsame : h.KnowsSame h') (call : Call) : call.newsOf? h = call.newsOf? h' := by
  unfold Call.newsOf? Host.hasNews Cache.entry
  simp only [hsame.modules.files, hsame.resolveAfresh]

/-- What two hosts that know the same record from now on is the same: all of it once their
recorders are started or stopped, and what they add to it until then. -/
theorem recording_after (hsame : h.KnowsSame h') (rest : List Call) :
    (rest.any (·.request.isMark) = true →
        (h.after rest).recording = (h'.after rest).recording) ∧
      (rest.any (·.request.isMark) = false → ∃ keys : List CanonicalKey,
        (h.after rest).recording = h.recording.map (· ++ keys) ∧
          (h'.after rest).recording = h'.recording.map (· ++ keys)) := by
  induction rest using List.reverseRecOn with
  | nil => exact ⟨nofun, fun _ => ⟨[], by simp [Host.after]⟩⟩
  | append_singleton rest call ih =>
    have hnews := (hsame.after rest).newsOf? call
    rw [Host.after_concat, Host.after_concat, List.any_append]
    cases hmark : call.request.isMark with
    | true =>
      refine ⟨fun _ => ?_, fun hno => by simp [hmark] at hno⟩
      rw [Call.recording_run, Call.recording_run]
      cases hrequest : call.request <;> simp_all [Request.isMark]
    | false =>
      rw [call.recording_run_of_not_isMark _ hmark, call.recording_run_of_not_isMark _ hmark, hnews]
      refine ⟨fun hyes => ?_, fun hno => ?_⟩
      · rw [ih.1 (by simpa [hmark] using hyes)]
      · obtain ⟨keys, hkeys, hkeys'⟩ := ih.2 (by simpa [hmark] using hno)
        refine ⟨keys ++ (call.newsOf? (h'.after rest)).toList, ?_, ?_⟩
        · simp [hkeys, Function.comp_def]
        · simp [hkeys', Function.comp_def]

end Host.KnowsSame

/-- Does one host answer whatever it is asked from now on as another does, asking its loaders for
the same? Only the counters may differ, and what was recorded before. -/
structure Host.AnswersAs (h h' : Host) : Prop where
  /-- Answers, with everything that becomes visible, are the same. -/
  answers : ∀ (rest : List Call) (call : Call), call.request.isReport = false →
    (call.run (h.after rest)).1 = (call.run (h'.after rest)).1
  /-- What is listed is the same, once the recorder has been started or stopped. -/
  listed : ∀ (rest : List Call) (c : Collaborators), rest.any (·.request.isMark) = true →
    (Call.run ⟨c, .finishRecording⟩ (h.after rest)).1 =
      (Call.run ⟨c, .finishRecording⟩ (h'.after rest)).1
  /-- Until then each host that is recording lists the same files behind those it had before. -/
  added : ∀ (rest : List Call), rest.any (·.request.isMark) = false →
    ∃ keys : List CanonicalKey, ∀ c : Collaborators,
      (Call.run ⟨c, .finishRecording⟩ (h.after rest)).1 =
          pure (.keys ((h.recording.map (· ++ keys)).getD [])) ∧
        (Call.run ⟨c, .finishRecording⟩ (h'.after rest)).1 =
          pure (.keys ((h'.recording.map (· ++ keys)).getD []))

/-- Hosts that know the same answer as each other, whatever comes. -/
theorem Host.KnowsSame.answersAs {h h' : Host} (hsame : h.KnowsSame h') : h.AnswersAs h' where
  answers rest call hreport := ((hsame.after rest).run call).1 hreport
  listed rest c hmark :=
    congrArg (fun recording : Option (List CanonicalKey) =>
      (pure (.keys (recording.getD [])) : Observed Answer))
      ((hsame.recording_after rest).1 hmark)
  added rest hmark := by
    obtain ⟨keys, hkeys, hkeys'⟩ := (hsame.recording_after rest).2 hmark
    refine ⟨keys, fun c => ⟨?_, ?_⟩⟩
    · rw [← hkeys]
      rfl
    · rw [← hkeys']
      rfl

/-! ## One file aside -/

/-- Does a host know what another knows, and besides that at most something of the file with this
key? -/
structure Host.KnowsBut (key : CanonicalKey) (h h' : Host) : Prop where
  settings : h.settings = h'.settings
  modules : h.modules.KnowsBut key h'.modules
  types : h.types.KnowsBut key h'.types

/-- Is it a batch of modules or of type references, for the file with this key? -/
def Call.isBatchFor (call : Call) (key : CanonicalKey) : Bool :=
  match call.request with
  | .resolveModules _ file | .resolveTypes _ file => (call.around.keyOf file).value = key
  | _ => false

namespace Host.KnowsBut

variable {h h' : Host} {key : CanonicalKey}

/-- A call other than a batch for the file does the same to both hosts. -/
theorem run (hbut : h.KnowsBut key h') {call : Call} (hother : call.isBatchFor key = false) :
    (call.run h).2.KnowsBut key (call.run h').2 := by
  obtain ⟨hsettings, hmodules, htypes⟩ := hbut
  obtain ⟨c, request⟩ := call
  cases request with
  | resolveModules names file =>
    have hk : (c.keyOf file).value ≠ key := by simpa [Call.isBatchFor] using hother
    have hload : (fun name (state : Unit) => (h.resolveAfresh c name file, state)) =
        fun name state => (h'.resolveAfresh c name file, state) := by
      unfold Host.resolveAfresh
      rw [hsettings]
    exact ⟨hsettings, hmodules.resolveNames hload hk names (), htypes⟩
  | resolveTypes names file =>
    have hk : (c.keyOf file).value ≠ key := by simpa [Call.isBatchFor] using hother
    have hload : (fun name (state : Unit) =>
          (c.typeLoader.ask c.surroundings h.settings name file, state)) =
        fun name state => (c.typeLoader.ask c.surroundings h'.settings name file, state) := by
      rw [hsettings]
    exact ⟨hsettings, hmodules, htypes.resolveNames hload hk names ()⟩
  | removeFile file => exact ⟨hsettings, hmodules.remove _, htypes.remove _⟩
  | replaceSettings settings => exact ⟨rfl, hmodules.clear, htypes.clear⟩
  | _ => exact ⟨hsettings, hmodules, htypes⟩

/-- A batch for the file does nothing else to the host that has it. -/
theorem run_self (hbut : h.KnowsBut key h') {call : Call} (hself : call.isBatchFor key = true) :
    (call.run h).2.KnowsBut key h' := by
  obtain ⟨hsettings, hmodules, htypes⟩ := hbut
  obtain ⟨c, request⟩ := call
  cases request with
  | resolveModules names file =>
    obtain rfl : (c.keyOf file).value = key := by simpa [Call.isBatchFor] using hself
    exact ⟨hsettings, hmodules.resolveNames_self names _ (), htypes⟩
  | resolveTypes names file =>
    obtain rfl : (c.keyOf file).value = key := by simpa [Call.isBatchFor] using hself
    exact ⟨hsettings, hmodules, htypes.resolveNames_self names _ ()⟩
  | _ => cases hself

/-- With or without the batches for the file, calls lead to hosts that differ in that file only. -/
theorem after (hbut : h.KnowsBut key h') (calls : List Call) :
    (h.after calls).KnowsBut key (h'.after (calls.filter (!·.isBatchFor key))) := by
  induction calls generalizing h h' with
  | nil => exact hbut
  | cons call calls ih =>
    cases hself : call.isBatchFor key with
    | true =>
      rw [List.filter_cons_of_neg (by simp [hself])]
      exact ih (hbut.run_self hself)
    | false =>
      rw [List.filter_cons_of_pos (by simp [hself])]
      exact ih (hbut.run hself)

end Host.KnowsBut

/-! ## New settings -/

/-- The caches keep their names in the log. -/
theorem Call.labels_run (call : Call) (h : Host) :
    (call.run h).2.modules.label = h.modules.label ∧
      (call.run h).2.types.label = h.types.label := by
  obtain ⟨c, request⟩ := call
  cases request with
  | removeFile file => exact ⟨Cache.remove_label _ _, Cache.remove_label _ _⟩
  | _ => exact ⟨rfl, rfl⟩

/-- No call renames the caches of a host in the log. -/
theorem Host.labels_after (h : Host) (calls : List Call) :
    (h.after calls).modules.label = h.modules.label ∧
      (h.after calls).types.label = h.types.label := by
  induction calls generalizing h with
  | nil => exact ⟨rfl, rfl⟩
  | cons call calls ih =>
    obtain ⟨hmodules, htypes⟩ := call.labels_run h
    rw [Host.after_cons, (ih _).1, (ih _).2]
    exact ⟨hmodules, htypes⟩

/-- **Nothing that is dropped shows later.** Whatever a host was asked before: once its settings
are replaced it answers as a new host with those settings, and once a file is removed it answers
as a host that never had a batch for that file. -/
theorem answers_as_never_asked (settings : Settings) (earlier : List Call) (c : Collaborators) :
    (∀ settings' : Settings,
      ((Host.new settings).after (earlier ++ [⟨c, .replaceSettings settings'⟩])).AnswersAs
        (Host.new settings')) ∧
    (∀ file : String,
      ((Host.new settings).after (earlier ++ [⟨c, .removeFile file⟩])).AnswersAs
        ((Host.new settings).after
          (earlier.filter (!·.isBatchFor (c.keyOf file).value)))) := by
  refine ⟨fun settings' => ?_, fun file => ?_⟩
  · rw [Host.after_concat]
    -- of the caches only their labels are left
    obtain ⟨hmodules, htypes⟩ := (Host.new settings).labels_after earlier
    have hsame : (Call.run ⟨c, .replaceSettings settings'⟩
        ((Host.new settings).after earlier)).2.KnowsSame (Host.new settings') :=
      ⟨rfl, ⟨hmodules, rfl⟩, htypes, rfl⟩
    exact hsame.answersAs
  · rw [Host.after_concat]
    have hnew : (Host.new settings).KnowsBut (c.keyOf file).value (Host.new settings) :=
      ⟨rfl, ⟨rfl, rfl⟩, rfl, rfl⟩
    obtain ⟨hsettings, hmodules, htypes⟩ := hnew.after earlier
    have hsame : (Call.run ⟨c, .removeFile file⟩ ((Host.new settings).after earlier)).2.KnowsSame
        ((Host.new settings).after (earlier.filter (!·.isBatchFor (c.keyOf file).value))) :=
      ⟨hsettings, hmodules.remove_self, htypes.remove_self⟩
    exact hsame.answersAs

end NameResolution
