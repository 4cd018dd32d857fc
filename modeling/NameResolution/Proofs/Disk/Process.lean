import NameResolution.Proofs.Disk.RealPath
import NameResolution.Proofs.Path.Key

/-!
# What a relative path means to a process

A relative path is walked from where the process stands. Behind the current directory it
becomes another path, and that one is walked as from where the current directory leads
(`IsSeenFrom.answersAs`), as far as the limits on lengths and links let it
(`Disk.IsWithinLimits`). So the two are answered alike when the current directory leads to
where the process stands, as it does when it is not pinned, and are told apart otherwise
(`isSeenFrom_of_answersAs`).
-/

namespace NameResolution

/-- A file system answers for a path what another one answers for another path. -/
structure FileSystem.AnswersAs (files : FileSystem) (q : Path) (files' : FileSystem) (p : Path) :
    Prop where
  fileExists : files.fileExists q = files'.fileExists p
  directoryExists : files.directoryExists q = files'.directoryExists p
  readText : files.readText q = files'.readText p
  realPath : files.realPath q = files'.realPath p

/-! ## Joined paths -/

namespace Path

variable {c p : Path}

/-- A joined path has the bytes of both its parts. -/
theorem byteLength_add_le_join (hrel : p.isAbsolute = false) :
    byteLength c.spelling + byteLength p.spelling ≤ byteLength (c.join p).spelling := by
  have hopened : byteLength c.spelling ≤ byteLength (opened c.spelling) := by
    unfold opened
    split
    next => exact Nat.le_refl _
    next =>
      rw [byteLength_append]
      exact Nat.le_add_right _ _
  rw [join_of_relative hrel, byteLength_append]
  exact Nat.add_le_add_right hopened _

/-- What is written in front makes a relative path absolute. -/
theorem isAbsolute_join_of_relative (h : p.isAbsolute = false) :
    (c.join p).isAbsolute = c.isAbsolute := by
  by_cases hc : c.spelling = []
  · rw [join_of_spelling_nil hc, h, isAbsolute, hc]
    rfl
  · obtain ⟨x, text, hx⟩ := List.exists_cons_of_ne_nil hc
    rw [join_of_relative h, isAbsolute, isAbsolute, opened, hx]
    split <;> rfl

end Path

namespace Disk

variable {d d' : Disk} {f : Bool} {s t : Spot} {p q c : Path} {n : Nat} {place : Place}
variable {steps : List Step} {pinned : Option Path} {executing : Path} {newLine : String}

/-! ## The directory of the process -/

/-- The disk with its process in another directory. -/
def standingAt (d : Disk) (s : Spot) : Disk := { d with workingDirectory := s }

/-- What stands under a name does not depend on where the process stands. -/
theorem at?_standingAt (name : List Char) : (d.standingAt t).at? s name = d.at? s name := rfl

/-- A walk does not depend on where the process stands, but for its start. -/
theorem follow_standingAt : (d.standingAt t).follow f n s steps = d.follow f n s steps := by
  induction n, s, steps using walk_induction with
  | nil n s => rw [follow_nil, follow_nil]
  | stay n s steps ih => rw [follow_stay, follow_stay, ih]
  | up n s steps ih => rw [follow_up, follow_up, ih]
  | down n s name steps ihdirectory ihlink =>
    by_cases hadmits : s.Admits name
    · rw [follow_down hadmits, follow_down hadmits, at?_standingAt]
      cases d.at? s name with
      | none => rfl
      | some node =>
        cases node with
        | directory => exact ihdirectory
        | file bytes => rfl
        | link target =>
          cases n with
          | zero => rfl
          | succ m => simp only [ihlink m target rfl]
    · rw [follow_down_of_not_admits hadmits, follow_down_of_not_admits hadmits]

/-- A relative path is walked from where the process stands. -/
theorem locate_relative (hrel : p.isAbsolute = false) (hne : p.spelling ≠ [])
    (hp : '\x00' ∉ p.spelling) :
    (d.standingAt t).locate f p = d.follow f linkLimit t (Step.ofText p.spelling) := by
  rw [locate_eq hp hne, follow_standingAt]
  exact congrArg (d.follow f linkLimit · _) (startOf_of_relative hrel)

/-- Nor does the search for a real path, as it asks for absolute paths. -/
theorem realSpot_standingAt : (d.standingAt t).realSpot n s steps = d.realSpot n s steps := by
  have harrive : ∀ f text, (d.standingAt t).arrive f ⟨'/' :: text⟩ = d.arrive f ⟨'/' :: text⟩ := by
    intro f text
    unfold arrive locate
    rw [follow_standingAt]
    rfl
  have hlookUp : ∀ s name rest, (d.standingAt t).lookUp s name rest = d.lookUp s name rest := by
    intro s name rest
    unfold lookUp reachLink reach pathOf Path.ofComponents
    simp only [List.cons_append, harrive]
  have hleg : (d.standingAt t).realLeg = d.realLeg := by
    funext s steps
    induction steps generalizing s with
    | nil => rfl
    | cons step steps ih =>
      cases step with
      | stay => exact ih s
      | up => exact ih s.up
      | down name =>
        rw [realLeg, realLeg, hlookUp]
        simp only [ih]
  unfold realSpot
  rw [hleg]

/-- The real path of a relative path is searched for from where the process stands. -/
theorem realPath_relative (hrel : p.isAbsolute = false) (hne : p.spelling ≠ [])
    (hp : '\x00' ∉ p.spelling) (ht : t.gone = 0) :
    (d.standingAt t).realPath p = d.realSpot linkLimit t (Step.ofText p.spelling) >>=
      fun spot => .ok (pathOf spot.place) := by
  rw [realPath_eq hp hne (.inr ht), realSpot_standingAt]
  exact congrArg (d.realSpot linkLimit · _ >>= _) (startOf_of_relative hrel)

/-! ## What is behind the current directory -/

/-- The spot that relative paths are walked from when they are written behind a directory: where
that leads, or where the process stands if nothing is written in front. -/
def IsSeenFrom (d : Disk) (c : Path) (t : Spot) : Prop :=
  if c.spelling = [] then t = d.workingDirectory else d.LeadsTo c t

/-- Neither the length of a path nor the number of its links is in the way of an answer. -/
structure IsWithinLimits (d : Disk) (q : Path) : Prop where
  short : byteLength q.spelling < pathLimit
  fewLinks : d.locate true q ≠ .error .tooManyLinks
  /-- The paths of the places on the way are short enough too, so that the search for the real path
  is stopped by a long name at most, which stops any walk. -/
  room : d.realPath q = .error .nameTooLong → d.locate true q = .error .nameTooLong

/-- What is absolute, or seen from a directory that was not deleted, leads to what is there. -/
theorem IsSeenFrom.gone_eq_zero (h : d.IsSeenFrom c t)
    (hc : c.isAbsolute = true ∨ d.workingDirectory.gone = 0) : t.gone = 0 := by
  unfold IsSeenFrom at h
  split at h
  next hnil =>
    have hrel : c.isAbsolute = false := by simp [Path.isAbsolute, hnil]
    rw [h]
    simpa [hrel] using hc
  next =>
    obtain ⟨k, -, hcomes⟩ := h.comes
    refine hcomes.gone_eq_zero ?_
    rcases hc with habs | hgone
    · rw [startOf_of_absolute habs]
      rfl
    · exact startOf_cases (motive := fun s => s.gone = 0) rfl hgone c.spelling

/-- A path behind the current directory is walked from where that leads, perhaps with fewer links
to follow. -/
theorem IsSeenFrom.locate_join (h : d.IsSeenFrom c t) (hrel : p.isAbsolute = false)
    (hne : p.spelling ≠ []) (hp : '\x00' ∉ p.spelling) :
    ∃ n ≤ linkLimit, ∀ f, d.locate f (c.join p) = d.follow f n t (Step.ofText p.spelling) := by
  unfold IsSeenFrom at h
  split at h
  next hnil =>
    rw [Path.join_of_spelling_nil hnil, h]
    exact ⟨linkLimit, Nat.le_refl _, fun f => locate_relative hrel hne hp⟩
  next hc =>
    obtain ⟨k, hk, hcomes⟩ := h.comes
    exact ⟨linkLimit - k, Nat.sub_le _ _,
      fun f => hcomes.locate_join hk (locate_ok h).1 hc f hrel hp⟩

/-- Within the limits, a path behind the current directory leads where the path leads from where
the current directory leads. -/
theorem IsSeenFrom.locate_eq (h : d.IsSeenFrom c t) (hrel : p.isAbsolute = false)
    (hne : p.spelling ≠ []) (hlinks : d.locate true (c.join p) ≠ .error .tooManyLinks) :
    d.locate true (c.join p) = (d.standingAt t).locate true p := by
  by_cases hp : '\x00' ∈ p.spelling
  · rw [locate_of_nul hp, locate_of_nul (Path.mem_join_of_mem_tail hp)]
  · obtain ⟨n, hn, hlocate⟩ := h.locate_join hrel hne hp
    rw [hlocate] at hlinks ⊢
    rw [locate_relative hrel hne hp, follow_mono hlinks hn]

/-- Within the limits, the real path of a path behind one that leads to a directory is searched for
from there. -/
theorem LeadsTo.realPath_join (hd : d.IsTree) (h : d.LeadsTo c t)
    (hc : c.isAbsolute = true ∨ d.workingDirectory.gone = 0) (hrel : p.isAbsolute = false)
    (hp : '\x00' ∉ p.spelling) (hlimits : d.IsWithinLimits (c.join p)) :
    d.realPath (c.join p) = d.realSpot linkLimit t (Step.ofText p.spelling) >>=
      fun spot => .ok (pathOf spot.place) := by
  obtain ⟨hnul, hne⟩ := locate_ok h
  have hplain : '\x00' ∉ (c.join p).spelling := Path.not_mem_join (by decide) hnul hp
  obtain ⟨front, hsteps, hfront⟩ := ofText_join (d := d) hne hrel
  obtain ⟨k, hk, hcomes⟩ := h.comes
  have hlocate := hcomes.locate_join hk hnul hne true hrel hp
  obtain ⟨m, hm⟩ := Nat.exists_eq_add_of_le hk
  rw [hm, Nat.add_sub_cancel_left] at hlocate
  rw [hfront, ← startOf_join hne hrel] at hcomes
  rw [← Path.isAbsolute_join_of_relative hrel] at hc
  have hsearch := realPath_eq hplain (Path.join_spelling_ne_nil hne hrel) hc
  rw [hsteps, hm] at hsearch
  -- the steps of the whole path are sound, and so are those of its parts
  have hsound : ∀ step ∈ front ++ Step.ofText p.spelling, step.IsSound := by
    rw [← hsteps]
    exact fun step => Step.isSound_of_mem_ofText hplain
  have hbehind := hd.realSpot_behind hcomes (hd.isThere_start hc)
    (fun step hstep => hsound step (List.mem_append_left _ hstep))
    (fun step hstep => hsound step (List.mem_append_right _ hstep))
    (hlocate ▸ hlimits.fewLinks)
    (fun hlong => hlocate ▸ hlimits.room (by rw [hsearch, hlong]; rfl))
    (hm ▸ Nat.le_add_left m k)
  rw [hsearch, hbehind]

/-- Within the limits, a path behind the current directory has the real path that the path has from
where the current directory leads. -/
theorem IsSeenFrom.realPath_join (hd : d.IsTree) (h : d.IsSeenFrom c t)
    (ht : c.isAbsolute = true ∨ d.workingDirectory.gone = 0 ∨ t = d.workingDirectory)
    (hrel : p.isAbsolute = false) (hne : p.spelling ≠ []) (hlimits : d.IsWithinLimits (c.join p)) :
    d.realPath (c.join p) = (d.standingAt t).realPath p := by
  by_cases hp : '\x00' ∈ p.spelling
  · rw [realPath_of_nul hp, realPath_of_nul (Path.mem_join_of_mem_tail hp)]
  by_cases hc : c.spelling = []
  · rw [IsSeenFrom, if_pos hc] at h
    rw [Path.join_of_spelling_nil hc, h]
    rfl
  have hleads : d.LeadsTo c t := by rwa [IsSeenFrom, if_neg hc] at h
  by_cases hstart : c.isAbsolute = true ∨ d.workingDirectory.gone = 0
  · rw [hleads.realPath_join hd hstart hrel hp hlimits]
    exact (realPath_relative hrel hne hp (h.gone_eq_zero hstart)).symm
  -- a relative path in a deleted directory: neither has a real path
  · obtain ⟨hfront, hgone⟩ := not_or.mp hstart
    rw [Bool.not_eq_true] at hfront
    have hwd : t = d.workingDirectory := (ht.resolve_left (by simp [hfront])).resolve_left hgone
    have hplain : '\x00' ∉ (c.join p).spelling :=
      Path.not_mem_join (by decide) (locate_ok hleads).1 hp
    have hbehind := (Path.isAbsolute_join_of_relative hrel).trans hfront
    rw [hwd, realPath_of_deleted hplain hbehind hgone]
    exact (realPath_of_deleted hp hrel hgone).symm

/-- Paths that lead to the same and have the same real path are answered alike. -/
theorem answersAs_of_locate_eq (hlocate : d.locate true q = d'.locate true p)
    (hq : byteLength q.spelling < pathLimit) (hp : byteLength p.spelling < pathLimit)
    (hreal : d.realPath q = d'.realPath p) :
    (d.fileSystem pinned executing newLine).AnswersAs q
      (d'.fileSystem pinned executing newLine) p := by
  have hreach : d.reach q = d'.reach p := by
    rw [reach, reach, arrive_of_short hq, arrive_of_short hp, hlocate]
  refine ⟨?_, ?_, ?_, hreal⟩
  · show d.fileExists q = d'.fileExists p
    rw [fileExists, fileExists, hreach]
  · show d.directoryExists q = d'.directoryExists p
    rw [directoryExists, directoryExists, hreach]
  · show d.readText q = d'.readText p
    rw [readText, readText, hreach]

/-- A path behind the current directory is answered as the path would be to a process that stands
where the current directory leads. -/
theorem IsSeenFrom.answersAs (hd : d.IsTree) (h : d.IsSeenFrom c t)
    (ht : c.isAbsolute = true ∨ d.workingDirectory.gone = 0 ∨ t = d.workingDirectory)
    (hrel : p.isAbsolute = false) (hne : p.spelling ≠ []) (hlimits : d.IsWithinLimits (c.join p)) :
    (d.fileSystem pinned executing newLine).AnswersAs (c.join p)
      ((d.standingAt t).fileSystem pinned executing newLine) p := by
  have hp : byteLength p.spelling < pathLimit :=
    Nat.lt_of_le_of_lt (Nat.le_of_add_left_le (Path.byteLength_add_le_join hrel)) hlimits.short
  exact answersAs_of_locate_eq (h.locate_eq hrel hne hlimits.fewLinks) hlimits.short hp
    (h.realPath_join hd ht hrel hne hlimits)

/-! ## Telling two directories apart -/

/-- Where a path leads to a directory, one stands. -/
theorem IsTree.node?_of_leadsTo (hd : d.IsTree) (h : d.LeadsTo p t) (ht : t.gone = 0) :
    d.node? t.place = some .directory := by
  have hholds : d.Holds t := hd.canArrive_of_locate h
  rwa [Holds, Spot.standing_of_gone ht] at hholds

/-- A directory and `.` behind it lead to the same. -/
theorem leadsTo_of_join_dot (hc : c.spelling ≠ []) (h : d.LeadsTo (c.join ⟨['.']⟩) t) :
    d.LeadsTo c t := by
  have hrel : (⟨['.']⟩ : Path).isAbsolute = false := rfl
  obtain ⟨front, hsteps, hfront⟩ := ofText_join (d := d) hc hrel
  obtain ⟨k, hk, hcomes⟩ := h.comes
  have hdot : Step.ofText ['.'] = [.stay] := rfl
  rw [startOf_join hc hrel, hsteps, hdot, Comes.concat_stay_iff, ← hfront] at hcomes
  exact .of_comes hcomes hk (fun hmem => (locate_ok h).1 (Path.mem_join_of_mem_base hrel hmem)) hc

/-- The process's directory is its own real path, if it was not deleted. -/
theorem realPath_dot : d.realPath ⟨['.']⟩ =
    if d.workingDirectory.gone = 0 then .ok (pathOf d.workingDirectory.place)
      else .error .notFound := by
  split
  next hgone =>
    rw [realPath_eq (by decide) (List.cons_ne_nil _ _) (.inr hgone)]
    show (d.realSpot linkLimit d.workingDirectory [.stay] >>= _) = _
    rw [realSpot_stay, realSpot_nil]
    rfl
  next hgone => exact realPath_of_deleted (by decide) rfl hgone

/-- Where the current directory does not lead to where the process stands, `.` and what it is
behind the current directory are told apart. -/
theorem isSeenFrom_of_answersAs (hd : d.IsTree)
    (hc : c.isAbsolute = true ∨ d.workingDirectory.gone = 0)
    (h : (d.fileSystem pinned executing newLine).AnswersAs (c.join ⟨['.']⟩)
      (d.fileSystem pinned executing newLine) ⟨['.']⟩) :
    d.IsSeenFrom c d.workingDirectory := by
  unfold IsSeenFrom
  split
  next => rfl
  next hne =>
    have hhere : d.locate true ⟨['.']⟩ = .ok (.found d.workingDirectory .directory) := rfl
    -- the process is in a directory, and so something is behind the current directory
    have hexists : d.directoryExists (c.join ⟨['.']⟩) = true :=
      h.directoryExists.trans (directoryExists_iff.mpr ⟨by decide, _, hhere⟩)
    obtain ⟨-, t, ht⟩ := directoryExists_iff.mp hexists
    have hseen : d.IsSeenFrom c t := by
      rw [IsSeenFrom, if_neg hne]
      exact leadsTo_of_join_dot hne ht
    have hgone := hseen.gone_eq_zero hc
    -- and it has the same real path, as there is one for it
    have hreal : d.realPath (c.join ⟨['.']⟩) = d.realPath ⟨['.']⟩ := h.realPath
    rw [← Path.isAbsolute_join_of_relative (p := ⟨['.']⟩) rfl] at hc
    have hfound := hd.realPath_cases hc
    rw [ht, hreal, realPath_dot] at hfound
    split at hfound
    next hwd =>
      have hpaths := Except.ok.inj (hfound.resolve_right nofun)
      have hplaces : d.workingDirectory.place = t.place :=
        hd.pathOf_injective (hd.node?_of_leadsTo hhere hwd) (hd.node?_of_leadsTo ht hgone) hpaths
      have hsame : t = d.workingDirectory := by
        calc t = ⟨t.place, t.gone⟩ := rfl
          _ = ⟨d.workingDirectory.place, d.workingDirectory.gone⟩ := by rw [hplaces, hgone, hwd]
      exact hsame ▸ leadsTo_of_join_dot hne ht
    next => exact hfound.elim nofun nofun

/-! ## The directory that is not pinned -/

/-- A path behind the path of a place goes down the names on the way, and on along its own steps. -/
theorem ofText_pathOf_join (h : ∀ name ∈ place, (Component.name name).IsStep)
    (hrel : p.isAbsolute = false) :
    Step.ofText ((pathOf place).join p).spelling =
      .stay :: (place.map .down ++ Step.ofText p.spelling) := by
  rw [Path.join_of_relative hrel]
  by_cases hroot : place = []
  · subst hroot
    exact Step.ofText_append_slash [] p.spelling
  · have hsteps : ∀ x ∈ place.map Component.name, x.IsStep := by
      intro x hx
      obtain ⟨name, hname, rfl⟩ := List.mem_map.mp hx
      exact h name hname
    have hopened : Path.opened (pathOf place).spelling = (pathOf place).spelling ++ ['/'] :=
      Path.opened_rooted (by simpa using hroot) hsteps
    rw [hopened, List.append_assoc]
    show Step.ofText (_ ++ '/' :: p.spelling) = _
    rw [Step.ofText_append_slash, ofText_pathOf hroot h]
    rfl

/-- Behind the path of a directory, a path without NUL has none. -/
theorem IsTree.plain_pathOf_join (hd : d.IsTree) (h : d.node? place = some .directory)
    (hp : '\x00' ∉ p.spelling) : '\x00' ∉ ((pathOf place).join p).spelling :=
  Path.not_mem_join (by decide) (plain_pathOf fun name hname => (hd.names h name hname).plain) hp

/-- A path behind the path of a directory is walked from the directory. -/
theorem IsTree.locate_pathOf_join (hd : d.IsTree) (h : d.node? place = some .directory)
    (hrel : p.isAbsolute = false) (hp : '\x00' ∉ p.spelling) :
    d.locate f ((pathOf place).join p) =
      d.follow f linkLimit ⟨place, 0⟩ (Step.ofText p.spelling) := by
  have hthere : d.IsThere ⟨place, 0⟩ := ⟨rfl, h⟩
  have hsteps := ofText_pathOf_join (fun name hname => (hd.names h name hname).isStep) hrel
  have habs : ((pathOf place).join p).isAbsolute = true := Path.isAbsolute_join_of_relative hrel
  exact hd.locate_of_steps hthere (hd.plain_pathOf_join h hp) habs hsteps (Step.ofText_ne_nil _)

/-- The real path of a path behind the path of a directory is searched for from the directory, if
that path is short enough to be asked for. -/
theorem IsTree.realPath_pathOf_join (hd : d.IsTree) (h : d.node? place = some .directory)
    (hrel : p.isAbsolute = false) (hp : '\x00' ∉ p.spelling)
    (hroom : byteLength (pathOf place).spelling + 1 < pathLimit) :
    d.realPath ((pathOf place).join p) =
      d.realSpot linkLimit ⟨place, 0⟩ (Step.ofText p.spelling) >>=
        fun spot => .ok (pathOf spot.place) := by
  have habs : ((pathOf place).join p).isAbsolute = true := Path.isAbsolute_join_of_relative hrel
  have hroot : (pathOf place).spelling ≠ [] := List.cons_ne_nil _ _
  have hsteps := ofText_pathOf_join (fun name hname => (hd.names h name hname).isStep) hrel
  rw [realPath_eq (hd.plain_pathOf_join h hp) (Path.join_spelling_ne_nil hroot hrel) (.inl habs),
    startOf_of_absolute habs, hsteps, realSpot_stay, hd.realSpot_pathOf h hroom]

/-- A path behind the path of a directory is answered as the path is to a process that stands in the
directory. -/
theorem IsTree.answersAs_pathOf (hd : d.IsTree) (h : d.node? place = some .directory)
    (hrel : p.isAbsolute = false) (hne : p.spelling ≠ [])
    (hshort : byteLength ((pathOf place).join p).spelling < pathLimit) :
    (d.fileSystem pinned executing newLine).AnswersAs ((pathOf place).join p)
      ((d.standingAt ⟨place, 0⟩).fileSystem pinned executing newLine) p := by
  have hbytes := Path.byteLength_add_le_join (c := pathOf place) hrel
  have hsome := byteLength_pos hne
  have hp : byteLength p.spelling < pathLimit := by omega
  have hroom : byteLength (pathOf place).spelling + 1 < pathLimit := by omega
  by_cases hnul : '\x00' ∈ p.spelling
  · have hjoin : '\x00' ∈ ((pathOf place).join p).spelling := Path.mem_join_of_mem_tail hnul
    refine answersAs_of_locate_eq ?_ hshort hp ?_
    · rw [locate_of_nul hnul, locate_of_nul hjoin]
    · rw [realPath_of_nul hnul, realPath_of_nul hjoin]
  · refine answersAs_of_locate_eq ?_ hshort hp ?_
    · rw [hd.locate_pathOf_join h hrel hnul, locate_relative hrel hne hnul]
    · rw [hd.realPath_pathOf_join h hrel hnul hroom, realPath_relative hrel hne hnul rfl]

/-! ## What a name is resolved to -/

/-- A relative path is resolved by writing the current directory in front. -/
theorem resolvePath_value (hrel : p.isAbsolute = false) (cwd : Observed Path) :
    (resolvePath cwd p).value = cwd.value.join p := by
  rw [resolvePath, if_neg (by simp [hrel])]
  rfl

/-- A process whose directory is not pinned and was not deleted sees names from there. -/
theorem currentDirectory_value (hgone : d.workingDirectory.gone = 0) :
    (d.currentDirectory none).value = pathOf d.workingDirectory.place := by
  rw [currentDirectory, workingPath?, if_pos hgone]
  rfl

/-- What is not rooted does not start with a slash. -/
theorem isAbsolute_of_not_isRooted (h : isRooted p.spelling = false) : p.isAbsolute = false := by
  rw [Path.isAbsolute, beq_eq_false_iff_ne]
  intro hhead
  obtain ⟨rest, hrest⟩ := List.head?_eq_some_iff.mp hhead
  rw [hrest] at h
  cases h

/-- The key of a name that is not rooted is the normal form of what the name is resolved to. -/
theorem key_of_relative (hrooted : isRooted p.spelling = false) (hp : '\\' ∉ p.spelling)
    (hc : '\\' ∉ c.spelling) :
    (CanonicalKey.of .sensitive c p.spelling).text = (c.join p).normalise.spelling := by
  have hkey := key_eq_normalise hc hp
  rw [hrooted, Bool.false_or] at hkey
  refine (congrArg Path.spelling hkey).trans ?_
  split
  next hempty => rw [Path.join_of_spelling_nil (List.isEmpty_iff.mp hempty)]
  next => rfl

/-- A path and what it is resolved to are answered alike when the current directory leads to where
the process stands, as it does when it is not pinned. Otherwise `.` is told from what it is
resolved to. The key of a name belongs to what the name is resolved to, in either case. -/
theorem resolved_path_answers (hd : d.IsTree) (pinned : Option Path) (executing : Path)
    (newLine : String) :
    let files := d.fileSystem pinned executing newLine
    let cwd := files.currentDirectory.value
    (d.IsSeenFrom cwd d.workingDirectory →
      ∀ p : Path, p.isAbsolute = false → p.spelling ≠ [] →
        d.IsWithinLimits (files.resolvePath p).value →
        files.AnswersAs (files.resolvePath p).value files p) ∧
    (¬ d.IsSeenFrom cwd d.workingDirectory →
      cwd.isAbsolute = true ∨ d.workingDirectory.gone = 0 →
        ¬ files.AnswersAs (files.resolvePath ⟨['.']⟩).value files ⟨['.']⟩) ∧
    (pinned = none → d.workingDirectory.gone = 0 →
      ∀ p : Path, p.isAbsolute = false → p.spelling ≠ [] →
        byteLength (files.resolvePath p).value.spelling < pathLimit →
        files.AnswersAs (files.resolvePath p).value files p) ∧
    (∀ p : Path, isRooted p.spelling = false → '\\' ∉ p.spelling → '\\' ∉ cwd.spelling →
      (CanonicalKey.of files.casePolicy cwd p.spelling).text =
        (files.resolvePath p).value.normalise.spelling) := by
  intro files cwd
  have hresolve : ∀ p : Path, p.isAbsolute = false → (files.resolvePath p).value = cwd.join p :=
    fun p hrel => resolvePath_value hrel _
  refine ⟨fun hseen p hrel hne => ?_, fun hparts hc h => ?_, fun hpinned hgone p hrel hne => ?_,
    fun p hrooted hp hc => ?_⟩
  · rw [hresolve p hrel]
    exact hseen.answersAs hd (.inr (.inr rfl)) hrel hne
  · rw [hresolve _ rfl] at h
    exact hparts (isSeenFrom_of_answersAs hd hc h)
  · have hcwd : cwd = pathOf d.workingDirectory.place := by
      rw [← currentDirectory_value hgone, ← hpinned]
      rfl
    have hworking : d.IsThere d.workingDirectory := isThere_of_holds hd.working hgone
    have hhere : d.standingAt ⟨d.workingDirectory.place, 0⟩ = d := by
      rw [← hgone]
      rfl
    intro hshort
    rw [hresolve p hrel, hcwd] at hshort ⊢
    have hanswers : files.AnswersAs ((pathOf d.workingDirectory.place).join p)
        ((d.standingAt ⟨d.workingDirectory.place, 0⟩).fileSystem pinned executing newLine) p :=
      hd.answersAs_pathOf hworking.2 hrel hne hshort
    rwa [hhere] at hanswers
  · rw [hresolve p (isAbsolute_of_not_isRooted hrooted)]
    exact key_of_relative hrooted hp hc

/-- A process that has gone from the directory of its file to another one. -/
def awayFromFile : Disk :=
  (({} : Disk).write (.ofString "/pinned/x.ts") []).makeDirectories (.ofString "/process")
    |>.changeDirectory (.ofString "/process")

/-- It was made by changes, which keep a tree. -/
theorem isTree_awayFromFile : awayFromFile.IsTree :=
  ((isTree_empty.write _ _).makeDirectories _).changeDirectory _

/-- A pinned directory that the process is not in: the name is resolved to a file that is there,
and is itself no file. With the directory pinned that the process is in, a name of the file and what
it is resolved to are answered alike. -/
theorem pinned_directory_parts_answers :
    let files := awayFromFile.fileSystem (some (.ofString "/pinned")) (.ofString "/bin/tsz") "\n"
    let beside := awayFromFile.fileSystem (some (.ofString "/process")) (.ofString "/bin/tsz") "\n"
    let name := Path.ofString "../pinned/x.ts"
    (files.resolvePath (.ofString "x.ts")).value = .ofString "/pinned/x.ts" ∧
      files.fileExists (.ofString "/pinned/x.ts") = true ∧
      files.fileExists (.ofString "x.ts") = false ∧
      ¬ files.AnswersAs (files.resolvePath ⟨['.']⟩).value files ⟨['.']⟩ ∧
      beside.fileExists name = true ∧
      beside.AnswersAs (beside.resolvePath name).value beside name := by
  intro files beside name
  have haway : ¬ awayFromFile.IsSeenFrom (.ofString "/pinned") awayFromFile.workingDirectory := by
    rw [IsSeenFrom, LeadsTo]
    decide +kernel
  have hthere : awayFromFile.IsSeenFrom (.ofString "/process") awayFromFile.workingDirectory := by
    rw [IsSeenFrom, LeadsTo]
    decide +kernel
  have hlimits : awayFromFile.IsWithinLimits (beside.resolvePath name).value :=
    ⟨by decide +kernel, by decide +kernel, by decide +kernel⟩
  refine ⟨by decide +kernel, by decide +kernel, by decide +kernel, ?_, by decide +kernel, ?_⟩
  · exact (resolved_path_answers isTree_awayFromFile (some (.ofString "/pinned")) _ _).2.1
      haway (.inl (by decide +kernel))
  · exact (resolved_path_answers isTree_awayFromFile (some (.ofString "/process")) _ _).1
      hthere name (by decide +kernel) (by decide +kernel) hlimits

end Disk

end NameResolution
