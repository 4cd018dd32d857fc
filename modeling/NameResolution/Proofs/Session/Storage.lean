import NameResolution.Proofs.Disk.Subdirectories
import NameResolution.Proofs.FileMap
import NameResolution.Proofs.Session.Run

/-!
# The files of a session

Whatever a session is told to do, its file map keeps showing each file under a spelling of
its own, and its disk remains a tree (`Session.isSound_after`). On such files the listing
of subdirectories and the test for directories agree about every child, but for two kinds:
a link to a directory is a directory and is not listed, and a directory whose path has
become too long is listed and not found (`subdirectories_agree`).
-/

namespace NameResolution

namespace Storage

variable {storage : Storage} {p c : Path} {l : List Path} {newLine : String}

/-- The files stand as changes leave them. -/
def IsSound : Storage → Prop
  | memory files _ _ _ => files.IsSpelled
  | disk d _ _ => d.IsTree

theorem IsSound.addFile (h : storage.IsSound) (p : Path) (text : String) :
    (storage.addFile p text).IsSound := by
  cases storage with
  | memory files casePolicy cwd executing => exact FileMap.IsSpelled.insert h p text
  | disk d pinned executing => exact Disk.IsTree.write h p _

theorem IsSound.removeFile (h : storage.IsSound) (p : Path) : (storage.removeFile p).IsSound := by
  cases storage with
  | memory files casePolicy cwd executing => exact FileMap.IsSpelled.erase h p
  | disk d pinned executing => exact Disk.IsTree.removeFile h p

/-- A change that keeps trees keeps a storage sound. -/
theorem IsSound.mapDisk {f : Disk → Disk} (h : storage.IsSound)
    (hf : ∀ d : Disk, d.IsTree → (f d).IsTree) : (storage.mapDisk f).IsSound := by
  cases storage with
  | memory files casePolicy cwd executing => exact h
  | disk d pinned executing => exact hf d h

end Storage

namespace Session

variable {s : Session}

/-- A command leaves the files sound. -/
theorem isSound_step (h : s.storage.IsSound) (command : Command) :
    (s.step command).2.storage.IsSound := by
  cases command with
  | addFile p text => exact h.addFile p text
  | removeFile p => exact h.removeFile p
  | makeDirectory p => exact h.mapDisk fun d hd => hd.makeDirectories p
  | removeDirectory p => exact h.mapDisk fun d hd => hd.removeDirectory p
  | changeDirectory p => exact h.mapDisk fun d hd => hd.changeDirectory p
  | writeBytes p bytes => exact h.mapDisk fun d hd => hd.write p bytes
  | makeLink p target => exact h.mapDisk fun d hd => hd.makeLink p target.toList
  | replaceSettings source =>
    rw [step]
    split
    next => exact h
    next => exact h
  | _ => exact h

/-- A run leaves the files sound. -/
theorem isSound_after (h : s.storage.IsSound) (commands : List Command) :
    (s.after commands).storage.IsSound := by
  induction commands generalizing s with
  | nil => exact h
  | cons command commands ih => exact ih (isSound_step h command)

end Session

namespace Storage

variable {storage : Storage} {p c : Path} {l : List Path} {newLine : String}

/-- Is a path one component longer? A disk has names for the files in a directory; a file map takes
any component for one. -/
def HasChild : Storage → Path → Path → Prop
  | memory .., p, c => ∃ x, p.IsChild x c
  | disk .., p, c => ∃ name, p.IsChild (.name name) c

/-- Does a link stand at the path? There are none in a file map. -/
def IsLink : Storage → Path → Prop
  | memory .., _ => False
  | disk d _ _, c => ∃ target, d.Stands c (.link target)

/-- Is the path short enough to be asked about? -/
def IsShort : Storage → Path → Prop
  | memory .., _ => True
  | disk .., c => byteLength c.spelling < pathLimit

/-- The subdirectories of a path are listed in ascending order and each once. They are children of
it, and directories if their paths are not too long; and a child that is a directory is listed just
if it is no link. -/
theorem subdirectories_agree (hs : storage.IsSound)
    (h : (storage.fileSystem newLine).subdirectories p = .ok l) :
    l.Pairwise (fun a b => a.compare b = .lt) ∧
      (∀ c ∈ l, storage.HasChild p c ∧
        ((storage.fileSystem newLine).directoryExists c = true ↔ storage.IsShort c)) ∧
      ∀ c, storage.HasChild p c → (storage.fileSystem newLine).directoryExists c = true →
        (c ∈ l ↔ ¬ storage.IsLink c) := by
  cases storage with
  | memory files casePolicy cwd executing =>
    obtain rfl : files.subdirectories p = l := Except.ok.inj h
    obtain ⟨hsorted, hlisted⟩ := FileMap.IsSpelled.lists hs p
    refine ⟨hsorted, fun c hc => ?_, fun c hchild hexists => ?_⟩
    · obtain ⟨hchild, hexists⟩ := (hlisted c).mp hc
      exact ⟨hchild, iff_of_true hexists trivial⟩
    · exact iff_of_true ((hlisted c).mpr ⟨hchild, hexists⟩) id
  | disk d pinned executing =>
    have hd : d.IsTree := hs
    replace h : d.subdirectories p = .ok l := h
    obtain ⟨hsorted, hlisted⟩ := hd.lists h
    refine ⟨hsorted, fun c hc => ?_, fun c ⟨name, hchild⟩ hexists => ?_⟩
    · obtain ⟨⟨name, hchild⟩, -⟩ := (hlisted c).mp hc
      refine ⟨⟨name, hchild⟩, (hd.directoryExists_child_iff h hchild).trans ?_⟩
      exact and_iff_left (.inl hc)
    · obtain ⟨-, hlink⟩ := (hd.directoryExists_child_iff h hchild).mp hexists
      refine ⟨fun hc ⟨target, htarget⟩ => ?_, fun hnot => hlink.resolve_right fun h => hnot h.1⟩
      have hdirectory := ((hlisted c).mp hc).2
      cases hdirectory.unique htarget

/-- A directory of the process and, beside it, a link to it. -/
def linkedDirectory : Storage :=
  .disk ((({} : Disk).makeDirectories (.ofString "/src")).makeLink (.ofString "/link") "/src".toList)
    none (.ofString "/bin/tsz")

theorem isSound_linkedDirectory : linkedDirectory.IsSound :=
  (Disk.isTree_empty.makeDirectories _).makeLink _ _

/-- A link to a directory is a directory to the process, and is not listed as one. -/
theorem link_is_directory_not_listed :
    let files := linkedDirectory.fileSystem "\n"
    ∃ l, files.subdirectories (.ofString "/") = .ok l ∧
      linkedDirectory.HasChild (.ofString "/") (.ofString "/link") ∧
      files.directoryExists (.ofString "/link") = true ∧ Path.ofString "/link" ∉ l := by
  intro files
  have hlisting : files.subdirectories (.ofString "/") = .ok [.ofString "/src"] := by
    decide +kernel
  have hexists : files.directoryExists (.ofString "/link") = true := by decide +kernel
  have hchild : linkedDirectory.HasChild (.ofString "/") (.ofString "/link") :=
    ⟨"link".toList, by decide +kernel, by decide +kernel⟩
  have hlink : linkedDirectory.IsLink (.ofString "/link") :=
    ⟨"/src".toList, ⟨["link".toList], 0⟩, by decide +kernel⟩
  have hagree := subdirectories_agree isSound_linkedDirectory hlisting
  exact ⟨_, hlisting, hchild, hexists,
    fun hlisted => (hagree.2.2 _ hchild hexists).mp hlisted hlink⟩

end Storage

end NameResolution
