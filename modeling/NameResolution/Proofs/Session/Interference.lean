import NameResolution.Proofs.Cache.Asking
import NameResolution.Proofs.Session.Viewpoint

/-!
# Nothing interferes with a resolution

A host keeps two caches over the same keys, under the same settings, emptied by the same
events; a recorder, a trace sink and a cancellation flag stand beside them. Still the two sides do
not show in each other, and what stands beside them shows in neither
(`no_interference`).

Both are said by a viewpoint. From one side (`Side.viewpoint`) the batches of the other come
to nothing. For the resolutions of both (`Viewpoint.resolutions`), so does whatever only asks,
records or cancels, and the wish for traces is taken out of all settings. That the
viewpoints are faithful is a matter of one step, command by command: `Session.step_spares` says
which loader a command may ask, and `Session.resolveModules_unwatched` and
`Session.resolveTypes_unwatched` what a trace does to a batch.
-/

namespace NameResolution

namespace Command

/-- The side that a batch is resolved for. -/
def batchOf? : Command → Option Side
  | .resolveModules .. => some .modules
  | .resolveTypes .. => some .types
  | _ => none

/-- The side whose loader a command may have to ask. -/
def asks? : Command → Option Side
  | .ask (.resolveAfresh ..) => some .modules
  | command => command.batchOf?

end Command

namespace Session

variable {sides : Side → Bool} (s : Session) (names : List String) (file : String)

/-- The batch behind a command for modules. -/
def moduleBatch : Observed (Batch ModuleTarget) × Cache ModuleTarget × Unit :=
  s.host.modules.resolveNames (s.keyOf file) names
    (fun name state => (s.host.resolveAfresh s.collaborators name file, state)) ()

/-- The batch behind a command for type references. -/
def typeBatch : Observed (Batch TypeTarget) × Cache TypeTarget × Unit :=
  s.host.types.resolveNames (s.keyOf file) names
    (fun name state => (s.collaborators.typeLoader.ask s.collaborators.surroundings s.host.settings
      name file, state)) ()

/-- Finding a key asks no loader. -/
theorem keyOf_spares : (s.collaborators.keyOf file).Spares sides :=
  (s.storage.currentDirectory_spares s.newLine).bind fun _ => rfl

/-- Resolving a module asks nothing of the side of type references. -/
theorem resolveAfresh_spares (hsides : sides .modules = false) (name : String) :
    (s.host.resolveAfresh s.collaborators name file).Spares sides :=
  s.loaders.resolveOrFallBack_spares (s.storage.currentDirectory_spares s.newLine) hsides _ _ _ _

theorem keyOf_seen : (s.collaborators.keyOf file).seen.filter (·.isFor sides) = [] :=
  congrArg Observed.seen (s.keyOf_spares file)

/-- A batch of modules shows its targets and the questions to its loader. -/
theorem asking_resolveModules :
    (s.step (.resolveModules names file)).1.asking sides =
      ⟨.modules (s.moduleBatch names file).1.value.targets,
        ((s.moduleBatch names file).1.asking sides).seen⟩ :=
  Observed.asking_map_behind Answer.modules _ (s.keyOf_seen file)

/-- A batch of type references shows its targets and the questions to its loader. -/
theorem asking_resolveTypes :
    (s.step (.resolveTypes names file)).1.asking sides =
      ⟨.types (s.typeBatch names file).1.value.targets,
        ((s.typeBatch names file).1.asking sides).seen⟩ :=
  Observed.asking_map_behind Answer.types _ (s.keyOf_seen file)

/-- A command asks no loader but that of its side. -/
theorem step_spares (command : Command) (h : command.asks?.any sides = false) :
    (s.step command).1.Spares sides := by
  cases command with
  | ask question =>
    cases question with
    | hasCached file =>
      exact ((s.keyOf_spares file).bind fun _ => .pure _).bind fun _ => .pure _
    | resolveAfresh name file => exact (s.resolveAfresh_spares file h name).bind fun _ => .pure _
    | currentDirectory =>
      exact (s.storage.currentDirectory_spares s.newLine).bind fun _ => .pure _
    | resolvePath p => exact (s.storage.resolvePath_spares s.newLine p).bind fun _ => .pure _
    | trace message =>
      exact (s.collaborators.surroundings.trace_spares message).bind fun _ => .pure _
    | _ => exact .pure _
  | resolveModules names file =>
    have hbatch : (s.moduleBatch names file).1.Spares sides :=
      Cache.resolveNames_spares _ _ _ _ fun name _ => s.resolveAfresh_spares file h name
    rw [Observed.Spares, asking_resolveModules, hbatch]
    rfl
  | resolveTypes names file =>
    have hbatch : (s.typeBatch names file).1.Spares sides :=
      Cache.resolveNames_spares _ _ _ _ fun name _ => s.loaders.askType_spares h _ name file
    rw [Observed.Spares, asking_resolveTypes, hbatch]
    rfl
  | notifyRemoved file =>
    have hmodules : (s.host.modules.remove (s.keyOf file)).1.seen.filter (·.isFor sides) = [] :=
      congrArg Observed.seen (Cache.remove_spares _ _)
    have htypes : (s.host.types.remove (s.keyOf file)).1.seen.filter (·.isFor sides) = [] :=
      congrArg Observed.seen (Cache.remove_spares _ _)
    refine (Observed.asking_map_behind _ _ (s.keyOf_seen file)).trans ?_
    refine congrArg (Observed.mk _) ?_
    rw [List.filter_cons_of_neg Bool.false_ne_true, List.filter_append]
    exact List.append_eq_nil_iff.mpr ⟨hmodules, htypes⟩
  | replaceSettings source =>
    rw [step]
    split <;> rfl
  | _ => exact .pure _

end Session

/-! ## One side and the other -/

namespace Answer

/-- The side that an answer belongs to. What a recorder lists are batches of modules. -/
def side? : Answer → Option Side
  | .modules _ | .keys _ | .resolution _ => some .modules
  | .types _ => some .types
  | _ => none

end Answer

namespace Side

def other : Side → Side
  | modules => types
  | types => modules

/-- A session without what the other side has to itself. -/
def hideOther (side : Side) (s : Session) : Session :=
  match side with
  | modules => { s with host := { s.host with types := { label := "type reference directive" } } }
  | types => { s with host := { s.host with modules := { label := "module" }, recording := none } }

/-- Who cares for one side notices its answers and the questions to its loader. Batches of the other
side come to nothing. -/
def viewpoint (side : Side) : Viewpoint where
  hide := side.hideOther
  form? := Option.guard fun command => command.batchOf? != some side.other
  signs _ x := x.signs (· == side) fun a => a.side? == some side

/-- Without questions, only the answer shows, to the side it is for. -/
theorem signs_of_spares {side : Side} {x : Observed Answer} (h : x.Spares (· == side))
    (command : Command) :
    side.viewpoint.signs command x =
      if x.value.side? == some side then [.answer x.value] else [] := by
  dsimp only [viewpoint]
  exact h.signs_eq

/-- A step moves what one side has to itself by that alone. -/
theorem hideOther_step (side : Side) (s : Session) (command : Command) :
    side.hideOther (s.step command).2 = side.hideOther ((side.hideOther s).step command).2 := by
  cases side <;> cases command with
  | replaceSettings source =>
    cases hread : source.read <;> (simp only [Session.step, hread]; rfl)
  | _ => rfl

/-- What the other side has to itself does not show in a command that is no batch of the other side.
-/
theorem signs_hideOther (side : Side) (s : Session) {command : Command}
    (h : command.batchOf? ≠ some side.other) :
    side.viewpoint.signs command (s.step command).1 =
      side.viewpoint.signs command ((side.hideOther s).step command).1 := by
  cases command with
  | ask question => cases side <;> cases question <;> rfl
  | resolveModules names file =>
    cases side with
    | modules => rfl
    | types => exact absurd rfl h
  | resolveTypes names file =>
    cases side with
    | modules => exact absurd rfl h
    | types => rfl
  | notifyRemoved file =>
    -- what is dropped may differ, but nobody is asked
    have hspares : ∀ s : Session, (s.step (.notifyRemoved file)).1.Spares (· == side) :=
      fun s => s.step_spares _ rfl
    rw [signs_of_spares (hspares s), signs_of_spares (hspares (side.hideOther s))]
    rfl
  | replaceSettings source =>
    cases hread : source.read with
    | error e => simp only [Session.step, hread]
    | ok settings =>
      simp only [Session.step, hread]
      rfl
  | _ => cases side <;> rfl

/-- From one side, a session cannot be told from one without what the other side has to itself. -/
theorem viewpoint_faithful (side : Side) : side.viewpoint.Faithful where
  passes := by
    intro command h s
    dsimp only [viewpoint] at h
    have hother : command.batchOf? = some side.other := by
      simpa using Option.guard_eq_none_iff.mp h
    cases command with
    | resolveModules names file =>
      cases side with
      | modules => cases hother
      | types => exact ⟨rfl, signs_of_spares (s.step_spares _ rfl) _⟩
    | resolveTypes names file =>
      cases side with
      | modules => exact ⟨rfl, signs_of_spares (s.step_spares _ rfl) _⟩
      | types => cases hother
    | _ => cases hother
  keeps := by
    intro command form h s
    dsimp only [viewpoint] at h
    obtain ⟨rfl, hother⟩ := Option.guard_eq_some_iff.mp h
    exact ⟨side.hideOther_step s command, side.signs_hideOther s (by simpa using hother)⟩

end Side

/-! ## Watched or not -/

/-- What a command comes to for the resolutions. A question, the recorder, a cancellation and
settings that are refused come to nothing; other settings to those without a wish for traces. -/
def Command.unwatched? : Command → Option Command
  | .ask _ | .startRecording | .finishRecording | .cancel | .reset => none
  | .replaceSettings source =>
    match source.read with
    | .ok settings => some (.replaceSettings (.given settings.untraced))
    | .error _ => none
  | command => some command

namespace Session

variable (s : Session) (names : List String) (name file : String)

/-- The session without a trace, a recorder or a cancellation. -/
def unwatched : Session :=
  { s with
    host := { s.host with settings := s.host.settings.untraced, recording := none }
    hasTrace := false
    cancellation := .never }

variable (sides : Side → Bool)

/-- Unwatched, a name is resolved afresh alike, and the same is asked. -/
theorem resolveAfresh_unwatched :
    (s.host.resolveAfresh s.collaborators name file).asking sides =
      (s.unwatched.host.resolveAfresh s.unwatched.collaborators name file).asking sides :=
  s.loaders.resolveOrFallBack_untraced (s.storage.currentDirectory_spares s.newLine) _ _ _ _

theorem answer_resolveAfresh_unwatched :
    (s.answer (.resolveAfresh name file)).asking sides =
      (s.unwatched.answer (.resolveAfresh name file)).asking sides := by
  simp only [answer, Observed.asking_bind, s.resolveAfresh_unwatched name file sides]

/-- Unwatched, a batch of modules is answered alike, and leaves the same. -/
theorem moduleBatch_unwatched :
    (s.moduleBatch names file).1.asking sides =
        (s.unwatched.moduleBatch names file).1.asking sides ∧
      (s.moduleBatch names file).2 = (s.unwatched.moduleBatch names file).2 := by
  refine Cache.resolveNames_of_asking _ _ _ _ ?_
  funext name state
  exact Prod.ext (s.resolveAfresh_unwatched name file sides) rfl

/-- Unwatched, a batch of type references is answered alike, and leaves the same. -/
theorem typeBatch_unwatched :
    (s.typeBatch names file).1.asking sides =
        (s.unwatched.typeBatch names file).1.asking sides ∧
      (s.typeBatch names file).2 = (s.unwatched.typeBatch names file).2 := by
  refine Cache.resolveNames_of_asking _ _ _ _ ?_
  funext name state
  exact Prod.ext (s.loaders.askType_untraced _ name file) rfl

/-- A batch of modules is answered without a trace as with one. -/
theorem resolveModules_unwatched :
    (s.step (.resolveModules names file)).1.asking sides =
        (s.unwatched.step (.resolveModules names file)).1.asking sides ∧
      (s.step (.resolveModules names file)).2.unwatched =
        (s.unwatched.step (.resolveModules names file)).2.unwatched := by
  obtain ⟨hbatch, hrest⟩ := s.moduleBatch_unwatched names file sides
  constructor
  · rw [asking_resolveModules, asking_resolveModules, hbatch, Observed.value_of_asking hbatch]
  · exact congrArg (fun rest : Cache ModuleTarget × Unit =>
      { s.unwatched with host := { s.unwatched.host with modules := rest.1 } }) hrest

/-- A batch of type references is answered without a trace as with one. -/
theorem resolveTypes_unwatched :
    (s.step (.resolveTypes names file)).1.asking sides =
        (s.unwatched.step (.resolveTypes names file)).1.asking sides ∧
      (s.step (.resolveTypes names file)).2.unwatched =
        (s.unwatched.step (.resolveTypes names file)).2.unwatched := by
  obtain ⟨hbatch, hrest⟩ := s.typeBatch_unwatched names file sides
  constructor
  · rw [asking_resolveTypes, asking_resolveTypes, hbatch, Observed.value_of_asking hbatch]
  · exact congrArg (fun rest : Cache TypeTarget × Unit =>
      { s.unwatched with host := { s.unwatched.host with types := rest.1 } }) hrest

end Session

/-- Who cares for the resolutions notices the answers to batches, and the questions to both loaders.
A name that is resolved afresh is asked for openly; its questions are left out here. -/
def Viewpoint.resolutions : Viewpoint where
  hide := Session.unwatched
  form? := Command.unwatched?
  signs
    | .ask (.resolveAfresh ..), _ => []
    | command, x => x.signs (fun _ => true) fun _ => command.batchOf?.isSome

namespace Viewpoint

/-- A command that is no batch and asks nothing shows nothing of resolutions. -/
theorem resolutions_signs_of_spares {x : Observed Answer} (h : x.Spares fun _ => true)
    {command : Command} (hcommand : command.batchOf? = none) :
    resolutions.signs command x = [] := by
  dsimp only [resolutions]
  split
  next => rfl
  next => rw [h.signs_eq, hcommand, Option.isSome_none, if_neg Bool.false_ne_true]

theorem resolutions_signs_of_asking {x y : Observed Answer}
    (h : x.asking (fun _ => true) = y.asking fun _ => true) (command : Command) :
    resolutions.signs command x = resolutions.signs command y := by
  dsimp only [resolutions]
  split
  next => rfl
  next => exact Observed.signs_of_asking h

/-- From the resolutions, a session cannot be told from an unwatched one. -/
theorem resolutions_faithful : resolutions.Faithful where
  passes := by
    intro command h s
    cases command with
    | ask question =>
      refine ⟨rfl, ?_⟩
      cases question with
      | resolveAfresh name file => rfl
      | _ => exact resolutions_signs_of_spares (s.step_spares _ rfl) rfl
    | replaceSettings source =>
      dsimp only [resolutions, Command.unwatched?] at h
      cases hread : source.read with
      | ok settings => simp [hread] at h
      | error e =>
        simp only [Session.step, hread]
        exact ⟨trivial, rfl⟩
    | startRecording => exact ⟨rfl, rfl⟩
    | finishRecording => exact ⟨rfl, rfl⟩
    | cancel => exact ⟨rfl, rfl⟩
    | reset => exact ⟨rfl, rfl⟩
    | _ => cases h
  keeps := by
    intro command form h s
    cases command with
    | resolveModules names file =>
      cases h
      obtain ⟨hanswer, hrest⟩ := s.resolveModules_unwatched names file fun _ => true
      exact ⟨hrest, resolutions_signs_of_asking hanswer _⟩
    | resolveTypes names file =>
      cases h
      obtain ⟨hanswer, hrest⟩ := s.resolveTypes_unwatched names file fun _ => true
      exact ⟨hrest, resolutions_signs_of_asking hanswer _⟩
    | replaceSettings source =>
      dsimp only [resolutions, Command.unwatched?] at h
      cases hread : source.read with
      | error e => simp [hread] at h
      | ok settings =>
        simp only [hread] at h
        cases h
        simp only [Session.step, hread]
        exact ⟨rfl, rfl⟩
    | ask => cases h
    | startRecording => cases h
    | finishRecording => cases h
    | cancel => cases h
    | reset => cases h
    | _ =>
      cases h
      exact ⟨rfl, rfl⟩

end Viewpoint

/-- How the names of a side were served. -/
def Side.stats (side : Side) (s : Session) : Stats :=
  match side with
  | modules => s.host.modules.stats
  | types => s.host.types.stats

theorem Side.stats_hideOther (side : Side) (s : Session) :
    side.stats (side.hideOther s) = side.stats s := by
  cases side <;> rfl

/-- The counters are the same in an unwatched session. -/
theorem Side.stats_unwatched (side : Side) (s : Session) :
    side.stats s.unwatched = side.stats s := by
  cases side <;> rfl

/-- **Nothing interferes with a resolution.** From one side, a run shows the same answers, the same
recorded keys, the same questions to the loader and the same counters when all batches of the other
side are left out of it. And two runs show the same answers to batches, the same questions to the
loaders and the same counters when they differ only in a trace sink, in the wish of the settings
for traces, and in steps that ask, record or cancel; what a name resolves to afresh after
them, and the questions for that, are the same too. -/
theorem no_interference (s : Session) (commands : List Command) :
    (∀ side : Side,
      let rest := commands.filter fun command => command.batchOf? != some side.other
      side.viewpoint.notices s commands = side.viewpoint.notices s rest ∧
        side.stats (s.after commands) = side.stats (s.after rest)) ∧
    ∀ (s' : Session) (commands' : List Command), s.unwatched = s'.unwatched →
      commands.filterMap Command.unwatched? = commands'.filterMap Command.unwatched? →
        Viewpoint.resolutions.notices s commands = Viewpoint.resolutions.notices s' commands' ∧
        (∀ side : Side, side.stats (s.after commands) = side.stats (s'.after commands')) ∧
        ∀ name file,
          ((s.after commands).answer (.resolveAfresh name file)).asking (fun _ => true) =
            ((s'.after commands').answer (.resolveAfresh name file)).asking fun _ => true := by
  constructor
  · intro side rest
    have hforms :
        commands.filterMap side.viewpoint.form? = rest.filterMap side.viewpoint.form? := by
      dsimp only [Side.viewpoint]
      rw [List.filterMap_eq_filter, List.filter_filter]
      simp only [Bool.and_self]
    obtain ⟨hnotices, hafter⟩ := side.viewpoint_faithful.alike rfl hforms
    refine ⟨hnotices, ?_⟩
    have hstats := congrArg side.stats hafter
    exact (side.stats_hideOther _).symm.trans (hstats.trans (side.stats_hideOther _))
  · intro s' commands' hs hcommands
    obtain ⟨hnotices, hafter⟩ := Viewpoint.resolutions_faithful.alike hs hcommands
    refine ⟨hnotices, fun side => ?_, fun name file => ?_⟩
    · have hstats := congrArg side.stats hafter
      exact (side.stats_unwatched _).symm.trans (hstats.trans (side.stats_unwatched _))
    · have hunwatched : (s.after commands).unwatched = (s'.after commands').unwatched := hafter
      rw [Session.answer_resolveAfresh_unwatched, hunwatched,
        ← Session.answer_resolveAfresh_unwatched]

/-- A run without a trace, and one that traces, records, asks and is told to stop. -/
theorem traced_without_interference :
    ∃ (s s' : Session) (commands commands' : List Command),
      s = Session.probing (FileMap.insert {} (Path.ofString "/proj/node_modules/a/index.d.ts") "")
        { name := "p", version := "1", autoDiscovery := true
          typingsCache := some (Path.ofString "/cache") } ∧
      s' = { s with
        host := Host.new { traceResolution := true }
        hasTrace := true
        cancellation := .flag false } ∧
      commands = [.resolveModules ["a", "b"] "m.ts", .replaceSettings (.given {}),
        .resolveTypes ["t"] "m.ts", .resolveModules ["b"] "m.ts"] ∧
      commands' = [.startRecording, .resolveModules ["a", "b"] "m.ts",
        .ask (.resolveAfresh "b" "m.ts"), .cancel,
        .replaceSettings (.given { traceResolution := true }), .ask .stats,
        .resolveTypes ["t"] "m.ts", .finishRecording, .reset, .resolveModules ["b"] "m.ts"] ∧
      s.unwatched = s'.unwatched ∧
      commands.filterMap Command.unwatched? = commands'.filterMap Command.unwatched? ∧
      (Viewpoint.resolutions.notices s commands).length = 9 ∧
      Viewpoint.resolutions.notices s commands = Viewpoint.resolutions.notices s' commands' := by
  refine ⟨_, _, _, _, rfl, rfl, rfl, rfl, rfl, rfl, by decide +kernel, ?_⟩
  exact ((no_interference _ _).2 _ _ rfl rfl).1

end NameResolution
