import NameResolution.Proofs.Loader.Probing
import NameResolution.Proofs.Path.Key
import NameResolution.Proofs.Session.Run

/-!
# The caches of a host do not show

As long as the files, the typings and the permission to fall back on them stay as
they are, a host answers every batch as a new host would. The tables know a file
by its key, while the loaders are handed the name as it was written; so the
invariant, `Session.Warm`, is about keys: what stands in the entry of a key is what
the key itself finds when it is taken for a file name. A batch may use the entry,
since its own spelling is seen in the same directory as the key
(`directoryOf_key`).
-/

namespace NameResolution

namespace Command

/-- Does the command leave alone what names are resolved by: the files, the typings cache, and
the permission to fall back on it? -/
def keepsSurroundings : Command → Bool
  | .addFile .. | .removeFile .. | .setAutoDiscovery _ | .setTypingsCache _ => false
  | _ => true

def file? : Command → Option String
  | .resolveModules _ file | .resolveTypes _ file | .notifyRemoved file => some file
  | _ => none

end Command

/-- The key of a file is seen in the directory that the file is seen in. -/
theorem directoryOf_key {cwd : Path} (habs : cwd.isAbsolute = true) (hcwd : '\\' ∉ cwd.spelling)
    {file : String} (hfile : '\\' ∉ file.toList) :
    Probing.directoryOf cwd (CanonicalKey.of .sensitive cwd file.toList).toString =
      Probing.directoryOf cwd file := by
  have hread : ∀ text : List Char, Path.ofString (String.ofList text) = ⟨text⟩ := fun text => by
    rw [Path.ofString, String.toList_ofList]
  rw [Probing.directoryOf, CanonicalKey.toString, hread, anchor_key habs hcwd hfile]
  rfl

namespace Session

/-- The session probes these files from this directory, with this typings cache to fall back
on. -/
structure Probes (s : Session) (files : FileMap) (cwd : Path) (cache : Option Path) : Prop where
  storage : ∃ executing, s.storage = .memory files .sensitive cwd executing
  loaders : s.loaders = .probing
  cache : s.project.fallbackCache? = cache

variable {s : Session} {files : FileMap} {cwd : Path} {cache : Option Path}

theorem Probes.keyOf_eq (h : s.Probes files cwd cache) (file : String) :
    s.keyOf file = CanonicalKey.of .sensitive cwd file.toList := by
  obtain ⟨_, hstorage⟩ := h.storage
  simp [keyOf, Collaborators.keyOf, collaborators, Session.files, hstorage, Storage.fileSystem,
    FileMap.fileSystem]

/-- A module name depends on a file only by the directory the file is seen in. -/
theorem Probes.moduleAfresh_eq (h : s.Probes files cwd cache) (name file : String) :
    s.moduleAfresh name file =
      Probing.find files.fileExists cache (Probing.directoryOf cwd file) name := by
  obtain ⟨_, hstorage⟩ := h.storage
  rw [Session.moduleAfresh_eq h.loaders, h.cache, Session.files, hstorage]
  rfl

theorem Probes.typeAfresh_eq (h : s.Probes files cwd cache) (name file : String) :
    s.typeAfresh name file =
      .ofSearch (fun file => ⟨some file, true⟩)
        (firstFile files.fileExists
          ((s.host.settings.typeRoots.getD Probing.defaultTypeRoots).map
            (Probing.inTypeRoot name))) := by
  have hloader : s.collaborators.typeLoader = Probing.typeLoader := by
    rw [collaborators, h.loaders]
    rfl
  obtain ⟨_, hstorage⟩ := h.storage
  rw [typeAfresh, Probing.askType_value hloader]
  simp [collaborators, Session.files, hstorage, Storage.fileSystem, FileMap.fileSystem]

/-- What is probed stays the same, unless the command is about just that. -/
theorem Probes.step (h : s.Probes files cwd cache) {command : Command}
    (hkeeps : command.keepsSurroundings = true) :
    (s.step command).2.Probes files cwd cache := by
  obtain ⟨⟨executing, hstorage⟩, hloaders, hcache⟩ := h
  refine ⟨?_, loaders_step hloaders command, ?_⟩
  · -- commands for a disk find no disk
    refine ⟨executing, ?_⟩
    cases command with
    | addFile p text => cases hkeeps
    | removeFile p => cases hkeeps
    | makeDirectory p => exact congrArg (Storage.mapDisk (·.makeDirectories p)) hstorage
    | removeDirectory p => exact congrArg (Storage.mapDisk (·.removeDirectory p)) hstorage
    | changeDirectory p => exact congrArg (Storage.mapDisk (·.changeDirectory p)) hstorage
    | writeBytes p bytes => exact congrArg (Storage.mapDisk (·.write p bytes)) hstorage
    | makeLink p target => exact congrArg (Storage.mapDisk (·.makeLink p target.toList)) hstorage
    | replaceSettings source =>
      rw [Session.step]
      split
      next => exact hstorage
      next => exact hstorage
    | _ => exact hstorage
  · cases command with
    | setAutoDiscovery allowed => cases hkeeps
    | setTypingsCache directory => cases hkeeps
    | replaceSettings source =>
      rw [Session.step]
      split
      next => exact hcache
      next => exact hcache
    | _ => exact hcache

/-- The session probes these files, and what stands in the entry of a key is what the key finds
when it is taken for a file name. -/
structure Warm (s : Session) (files : FileMap) (cwd : Path) (cache : Option Path) : Prop
    extends s.Probes files cwd cache where
  modules : ∀ key n r, (s.host.modules.entry key).get? n = some r →
    r = s.moduleAfresh n key.toString
  types : ∀ key n r, (s.host.types.entry key).get? n = some r → r = s.typeAfresh n key.toString

/-- A new host is warm, as it knows nothing. -/
theorem Probes.warm_new (h : s.Probes files cwd cache) {settings : Settings}
    (hnew : s.host = Host.new settings) : s.Warm files cwd cache where
  toProbes := h
  modules key n r hr := by
    rw [hnew] at hr
    cases hr
  types key n r hr := by
    rw [hnew] at hr
    cases hr

/-- The key of a file finds what the file finds. -/
theorem Probes.moduleAfresh_key (h : s.Probes files cwd cache) (habs : cwd.isAbsolute = true)
    (hcwd : '\\' ∉ cwd.spelling) {file : String} (hfile : '\\' ∉ file.toList) (name : String) :
    s.moduleAfresh name (s.keyOf file).toString = s.moduleAfresh name file := by
  rw [h.moduleAfresh_eq, h.moduleAfresh_eq, h.keyOf_eq, directoryOf_key habs hcwd hfile]

/-- Every command on a file without a backslash keeps the host warm. -/
theorem Warm.step (h : s.Warm files cwd cache) (habs : cwd.isAbsolute = true)
    (hcwd : '\\' ∉ cwd.spelling) {command : Command} (hkeeps : command.keepsSurroundings = true)
    (hfile : ∀ file, command.file? = some file → '\\' ∉ file.toList) :
    (s.step command).2.Warm files cwd cache where
  toProbes := h.toProbes.step hkeeps
  modules key n r hr := by
    -- what is found afresh is found afresh behind the command as well
    have hsame : (s.step command).2.moduleAfresh n key.toString =
        s.moduleAfresh n key.toString := by
      rw [(h.toProbes.step hkeeps).moduleAfresh_eq, h.moduleAfresh_eq]
    rw [hsame]
    rcases modules_of_step hr with hold | ⟨names, file, rfl, rfl, -, hnew⟩
    · exact h.modules key n r hold
    · rw [hnew, h.moduleAfresh_key habs hcwd (hfile file rfl)]
  types key n r hr := by
    -- type references depend on the settings, so they are the same or no entry is left
    obtain ⟨hsettings, horigin⟩ := types_of_step hr
    have hsame : (s.step command).2.typeAfresh n key.toString = s.typeAfresh n key.toString := by
      rw [(h.toProbes.step hkeeps).typeAfresh_eq, h.typeAfresh_eq, hsettings]
    rw [hsame]
    rcases horigin with hold | ⟨names, file, rfl, rfl, hnew⟩
    · exact h.types key n r hold
    · rw [hnew, h.typeAfresh_eq, h.typeAfresh_eq]

/-- A host stays warm in a run of commands on files without backslashes. -/
theorem Warm.after (habs : cwd.isAbsolute = true) (hcwd : '\\' ∉ cwd.spelling) :
    ∀ (commands : List Command) {s : Session}, s.Warm files cwd cache →
      (∀ c ∈ commands, c.keepsSurroundings = true) →
      (∀ c ∈ commands, ∀ file, c.file? = some file → '\\' ∉ file.toList) →
      (s.after commands).Warm files cwd cache
  | [], _, h, _, _ => h
  | command :: commands, s, h, hkeeps, hfiles => by
    have hstep := h.step habs hcwd (hkeeps command List.mem_cons_self)
      (hfiles command List.mem_cons_self)
    rw [after_cons]
    exact hstep.after habs hcwd commands (fun c hc => hkeeps c (List.mem_cons_of_mem _ hc))
      (fun c hc => hfiles c (List.mem_cons_of_mem _ hc))

/-- A warm host answers a batch of modules with what it would find afresh. -/
theorem Warm.answer_modules (h : s.Warm files cwd cache) (habs : cwd.isAbsolute = true)
    (hcwd : '\\' ∉ cwd.spelling) {file : String} (hfile : '\\' ∉ file.toList)
    (names : List String) :
    (s.step (.resolveModules names file)).1.value =
      .modules (names.map fun n => (s.moduleAfresh n file).target) := by
  refine answer_resolveModules ?_ names
  intro n r hr _
  rw [h.modules _ n r hr, h.moduleAfresh_key habs hcwd hfile]

/-- A warm host answers a batch of type references with what it would find afresh. -/
theorem Warm.answer_types (h : s.Warm files cwd cache) (names : List String) (file : String) :
    (s.step (.resolveTypes names file)).1.value =
      .types (names.map fun n => (s.typeAfresh n file).target) := by
  refine answer_resolveTypes ?_ names
  intro n r hr _
  rw [h.types _ n r hr, h.typeAfresh_eq, h.typeAfresh_eq]

/-- The session with a new host, under the settings in force. -/
def anew (s : Session) : Session := { s with host := Host.new s.host.settings }

end Session

/-- **The caches do not show.** After any run of commands that leave the files, the typings cache
and the permission to fall back on it as they are, on files that are spelled without backslashes
but in any other way, a host answers every batch as a new host with the settings then in force
answers it. -/
theorem answers_as_new_host {s : Session} {files : FileMap} {cwd executing : Path}
    {settings : Settings} (hstorage : s.storage = .memory files .sensitive cwd executing)
    (habs : cwd.isAbsolute = true) (hcwd : '\\' ∉ cwd.spelling) (hloaders : s.loaders = .probing)
    (hnew : s.host = Host.new settings) {earlier : List Command}
    (hkeeps : ∀ c ∈ earlier, c.keepsSurroundings = true)
    (hfiles : ∀ c ∈ earlier, ∀ file, c.file? = some file → '\\' ∉ file.toList)
    {file : String} (hfile : '\\' ∉ file.toList) (names : List String) :
    ((s.after earlier).step (.resolveModules names file)).1.value =
        ((s.after earlier).anew.step (.resolveModules names file)).1.value ∧
      ((s.after earlier).step (.resolveTypes names file)).1.value =
        ((s.after earlier).anew.step (.resolveTypes names file)).1.value := by
  have hprobes : s.Probes files cwd s.project.fallbackCache? :=
    ⟨⟨executing, hstorage⟩, hloaders, rfl⟩
  have hnow := (hprobes.warm_new hnew).after habs hcwd earlier hkeeps hfiles
  have hanew : (s.after earlier).anew.Warm files cwd s.project.fallbackCache? :=
    Session.Probes.warm_new ⟨hnow.storage, hnow.loaders, hnow.cache⟩ rfl
  constructor
  · rw [hnow.answer_modules habs hcwd hfile, hanew.answer_modules habs hcwd hfile]
    rfl
  · rw [hnow.answer_types, hanew.answer_types]
    rfl

/-- A file under three spellings, and one on a drive, with new settings and a removal in
between: the entry that the last batch finds was made under another spelling. -/
theorem respelled_answers_as_new_host :
    ∃ (s : Session) (earlier : List Command),
      s = Session.probing
        (FileMap.insert {} (Path.ofString "/proj/node_modules/a/index.d.ts") "")
        { name := "p", version := "1" } ∧
      earlier =
        [.resolveModules ["a", "b"] "src/main.ts", .resolveTypes ["t"] "c:/main.ts",
         .replaceSettings (.given { typeRoots := some [Path.ofString "/proj/node_modules"] }),
         .resolveModules ["a"] "/proj//src/./main.ts", .resolveTypes ["a"] "c:/main.ts",
         .notifyRemoved "src/main.ts", .resolveModules ["a", "a", "*"] "lib/../src/main.ts"] ∧
      (Path.ofString "/proj").isAbsolute = true ∧ '\\' ∉ (Path.ofString "/proj").spelling ∧
      ((s.after earlier).host.modules.entry ⟨"/proj/src/main.ts".toList⟩).contains "a" = true ∧
      ((s.after earlier).step (.resolveModules ["a", "b"] "src//main.ts")).1.value =
        ((s.after earlier).anew.step (.resolveModules ["a", "b"] "src//main.ts")).1.value ∧
      ((s.after earlier).step (.resolveTypes ["a", "b"] "src//main.ts")).1.value =
        ((s.after earlier).anew.step (.resolveTypes ["a", "b"] "src//main.ts")).1.value := by
  have habs : (Path.ofString "/proj").isAbsolute = true := by decide
  have hcwd : '\\' ∉ (Path.ofString "/proj").spelling := by decide
  refine ⟨_, _, rfl, rfl, habs, hcwd, by decide +kernel, ?_⟩
  refine answers_as_new_host rfl habs hcwd rfl rfl ?_ ?_ (by decide) _
  · simp [Command.keepsSurroundings]
  · simp [Command.file?]

end NameResolution
