import NameResolution.Disk.Change
import NameResolution.Proofs.Disk.Locate

/-!
# Directory trees

On a disk that is a tree, everything stands in a directory, under a name that a
directory can hold, and the process stands in a directory that is there, or was, below
one that is (`Disk.IsTree`). A walk on a tree never leaves what is there (`Comes.holds`),
so what a path arrives at is a directory of the tree, something else in one, or a place
for something new (`IsTree.canArrive_of_arrive`). Every change leaves a tree a tree: what
is new is put into a directory, a directory is deleted with everything below it, and
nothing else is taken out but files and links.
-/

namespace NameResolution

/-- A name that something in a directory can have. -/
structure IsEntryName (name : List Char) : Prop where
  isStep : (Component.name name).IsStep
  plain : '\x00' ∉ name
  fits : byteLength name ≤ nameLimit

/-- The directories on the way to a spot that have not been deleted. -/
def Spot.standing (s : Spot) : Place := s.place.take (s.place.length - s.gone)

/-- Where nothing is gone, the whole place is standing. -/
theorem Spot.standing_of_gone {s : Spot} (h : s.gone = 0) : s.standing = s.place := by
  rw [standing, h, Nat.sub_zero, List.take_length]

/-- A step up stays in a directory that is there, or goes up one directory there. -/
theorem Spot.standing_up (s : Spot) :
    s.up.standing = s.standing ∨ s.up.standing = s.standing.dropLast := by
  obtain ⟨place, gone⟩ := s
  have hup : (⟨place, gone⟩ : Spot).up.standing =
      place.take (min (place.length - 1 - (gone - 1)) (place.length - 1)) := by
    show place.dropLast.take (place.dropLast.length - (gone - 1)) = _
    rw [List.length_dropLast, List.dropLast_eq_take, List.take_take]
  rw [hup]
  cases gone with
  | zero =>
    right
    rw [standing_of_gone rfl, List.dropLast_eq_take]
    show place.take _ = place.take (place.length - 1)
    congr 1
    omega
  | succ gone =>
    left
    show place.take _ = place.take (place.length - (gone + 1))
    congr 1
    omega

namespace Disk

variable {d : Disk} {s t : Spot} {place parent : Place} {name target : List Char} {node : Node}
variable {steps left : List Step} {k : Nat} {f : Bool} {p : Path}

/-- The way to a spot leads through directories that are there, as far as they are not deleted. -/
def Holds (d : Disk) (s : Spot) : Prop := d.node? s.standing = some .directory

/-- The directories, files and links of a disk form a tree, and its process stands in it. -/
structure IsTree (d : Disk) : Prop where
  inDirectory : ∀ place node, d.nodes.get? place = some node →
    ∃ parent name, place = parent ++ [name] ∧ IsEntryName name ∧
      d.node? parent = some .directory
  target : ∀ place target, d.nodes.get? place = some (.link target) → '\x00' ∉ target
  working : d.Holds d.workingDirectory

/-- The empty disk is a tree. -/
theorem isTree_empty : ({} : Disk).IsTree where
  inDirectory _ _ h := by cases h
  target _ _ h := by cases h
  working := rfl

theorem node?_of_ne (h : place ≠ []) : d.node? place = d.nodes.get? place := by
  rw [node?, if_neg h]

theorem node?_concat : d.node? (place ++ [name]) = d.nodes.get? (place ++ [name]) :=
  node?_of_ne (by simp)

theorem node?_root : d.node? [] = some .directory := rfl

/-- What stands on a tree stands in a directory. -/
theorem IsTree.entry (hd : d.IsTree) (h : d.node? (place ++ [name]) = some node) :
    IsEntryName name ∧ d.node? place = some .directory := by
  rw [node?_concat] at h
  obtain ⟨parent, last, heq, hname, hparent⟩ := hd.inDirectory _ _ h
  obtain ⟨rfl, hlast⟩ := List.append_inj' heq rfl
  obtain rfl := (List.cons.inj hlast).1
  exact ⟨hname, hparent⟩

/-- Above everything that stands on a tree there are directories. -/
theorem IsTree.above (hd : d.IsTree) {below : Place} (hbelow : below ≠ [])
    (h : d.node? (place ++ below) = some node) : d.node? place = some .directory := by
  induction below using List.reverseRecOn generalizing node with
  | nil => exact absurd rfl hbelow
  | append_singleton below last ih =>
    rw [← List.append_assoc] at h
    have hparent := (hd.entry h).2
    by_cases hnil : below = []
    · rwa [hnil, List.append_nil] at hparent
    · exact ih hnil hparent

/-- Above a directory there is a directory. -/
theorem IsTree.dropLast (hd : d.IsTree) (h : d.node? place = some .directory) :
    d.node? place.dropLast = some .directory := by
  rcases List.eq_nil_or_concat place with rfl | ⟨parent, name, rfl⟩
  · exact h
  · rw [List.concat_eq_append] at h ⊢
    rw [List.dropLast_concat]
    exact hd.above (by simp) h

/-- All the way up from a directory there are directories. -/
theorem IsTree.take (hd : d.IsTree) (h : d.node? place = some .directory) (n : Nat) :
    d.node? (place.take n) = some .directory := by
  by_cases hdrop : place.drop n = []
  · have hwhole := List.take_append_drop n place
    rw [hdrop, List.append_nil] at hwhole
    rwa [hwhole]
  · rw [← List.take_append_drop n place] at h
    exact hd.above hdrop h

/-! ## Walking on a tree -/

theorem holds_root : d.Holds Spot.root := node?_root

/-- One step up from what holds, it holds. -/
theorem IsTree.holds_up (hd : d.IsTree) (h : d.Holds s) : d.Holds s.up := by
  unfold Holds at h ⊢
  rcases s.standing_up with hup | hup
  · rw [hup]
    exact h
  · rw [hup]
    exact hd.dropLast h

/-- A directory that stands under a name holds. -/
theorem holds_below (h : d.at? s name = some .directory) : d.Holds (s.below name) := by
  rw [Holds, Spot.standing_of_gone rfl]
  exact h

/-- No link of a tree has a NUL in its target. -/
theorem IsTree.target_plain (hd : d.IsTree) (h : d.at? s name = some (.link target)) :
    '\x00' ∉ target := by
  rw [at?, Spot.below, node?_concat] at h
  exact hd.target _ _ h

end Disk

/-- A step that goes down goes down to a name that a path can hold. -/
def Step.IsSound (step : Step) : Prop :=
  ∀ name, step = .down name → (Component.name name).IsStep ∧ '\x00' ∉ name

/-- The steps of a text without NUL are sound. -/
theorem Step.isSound_of_mem_ofText {text : List Char} (h : '\x00' ∉ text) {step : Step}
    (hstep : step ∈ ofText text) : step.IsSound := by
  rintro name rfl
  obtain ⟨piece, hpiece, hdown⟩ := List.mem_map.mp hstep
  unfold ofPiece at hdown
  split at hdown
  next => cases hdown
  next hdot =>
    split at hdown
    next => cases hdown
    next hparent =>
      cases hdown
      rw [not_or] at hdot
      exact ⟨⟨hdot.1, not_mem_of_mem_slashPieces hpiece, hdot.2, hparent⟩,
        fun hmem => h (mem_of_mem_slashPieces hpiece hmem)⟩

namespace Disk

variable {d : Disk} {s t : Spot} {place parent : Place} {name target : List Char} {node : Node}
variable {steps left : List Step} {k : Nat} {f : Bool} {p : Path}

/-- Behind a link, the steps are those of its target and the ones that were left. -/
theorem IsTree.sound_link (hd : d.IsTree) (hat : d.at? s name = some (.link target))
    (hsteps : ∀ step ∈ steps, step.IsSound) :
    ∀ step ∈ Step.ofText target ++ steps, step.IsSound := by
  intro step hstep
  rcases List.mem_append.mp hstep with hstep | hstep
  · exact Step.isSound_of_mem_ofText (hd.target_plain hat) hstep
  · exact hsteps step hstep

/-- A walk on a tree comes to directories of the tree only, and has sound steps before it. -/
theorem Comes.holds (hd : d.IsTree) (h : d.Comes t left k s steps) (hs : d.Holds s)
    (hsteps : ∀ step ∈ steps, step.IsSound) :
    d.Holds t ∧ ∀ step ∈ left, step.IsSound := by
  induction h with
  | here => exact ⟨hs, hsteps⟩
  | stay _ ih => exact ih hs (List.forall_mem_cons.mp hsteps).2
  | up _ ih => exact ih (hd.holds_up hs) (List.forall_mem_cons.mp hsteps).2
  | down _ hat _ ih => exact ih (holds_below hat) (List.forall_mem_cons.mp hsteps).2
  | @link k s name target steps _ hat _ ih =>
    have hrest := (List.forall_mem_cons.mp hsteps).2
    exact ih (startOf_cases holds_root hs target) (hd.sound_link hat hrest)

/-- What a path can arrive at on a tree. -/
def CanArrive (d : Disk) : Arrival → Prop
  | .found s .directory => d.Holds s
  | .found s node => d.nodes.get? s.place = some node
  | .vacant s name => d.node? s.place = some .directory ∧ IsEntryName name ∧ d.at? s name = none

/-- A walk on a tree, with sound steps from what holds, arrives at what it can arrive at. -/
theorem IsTree.canArrive (hd : d.IsTree) {a : Arrival} (ha : d.Arrives k s steps a)
    (hs : d.Holds s) (hsteps : ∀ step ∈ steps, step.IsSound) : d.CanArrive a := by
  cases ha with
  | directory hcomes => exact (hcomes.holds hd hs hsteps).1
  | @entry t name node hcomes _ hat hnode =>
    rw [at?, Spot.below, node?_concat] at hat
    cases node with
    | directory => exact absurd rfl hnode
    | file bytes => exact hat
    | link target => exact hat
  | @vacant t name hcomes hadmits hat =>
    obtain ⟨ht, hlast⟩ := hcomes.holds hd hs hsteps
    obtain ⟨hstep, hplain⟩ := hlast _ List.mem_cons_self name rfl
    rw [Holds, Spot.standing_of_gone hadmits.1] at ht
    exact ⟨ht, ⟨hstep, hplain, hadmits.2⟩, hat⟩

/-- What a path leads to is what it can arrive at. -/
theorem IsTree.canArrive_of_locate (hd : d.IsTree) {a : Arrival} (h : d.locate f p = .ok a) :
    d.CanArrive a := by
  obtain ⟨hplain, hne⟩ := locate_ok h
  rw [locate_eq hplain hne] at h
  obtain ⟨k, -, ha⟩ := arrives_of_follow h
  exact hd.canArrive ha (startOf_cases holds_root hd.working _)
    fun step => Step.isSound_of_mem_ofText hplain

/-- A path that arrives leads there, its length aside. -/
theorem locate_of_arrive {a : Arrival} (h : d.arrive f p = .ok a) : d.locate f p = .ok a := by
  unfold arrive at h
  split at h
  next => cases h
  next => exact h

/-- What a path arrives at on a tree. -/
theorem IsTree.canArrive_of_arrive (hd : d.IsTree) {a : Arrival} (h : d.arrive f p = .ok a) :
    d.CanArrive a :=
  hd.canArrive_of_locate (locate_of_arrive h)

/-- What stands where a path arrives is what it leads to. -/
theorem locate_of_occupant (h : d.arrive f p >>= occupant = .ok (s, node)) :
    d.locate f p = .ok (.found s node) := by
  cases harrive : d.arrive f p with
  | error e =>
    rw [harrive] at h
    cases h
  | ok a =>
    rw [harrive] at h
    cases a with
    | found t stands =>
      cases h
      exact locate_of_arrive harrive
    | vacant t name => cases h

/-! ## Changes -/

/-- Directories stay where they are when something is put where there is none. -/
theorem node?_put_of_directory (hfree : d.node? place ≠ some .directory)
    (h : d.node? parent = some .directory) : (d.put place node).node? parent = some .directory := by
  by_cases hroot : parent = []
  · rw [hroot]
    rfl
  · rw [node?_of_ne hroot] at h ⊢
    have hne : place ≠ parent := by
      rintro rfl
      exact hfree (by rwa [node?_of_ne hroot])
    show (d.nodes.insert place node).get? parent = _
    rw [Table.get?_insert, if_neg hne, h]

/-- What is put under the name of an entry, in place of no directory, keeps a tree. -/
theorem IsTree.put (hd : d.IsTree) (hparent : d.node? parent = some .directory)
    (hname : IsEntryName name) (hfree : d.node? (parent ++ [name]) ≠ some .directory)
    (htarget : ∀ target, node = .link target → '\x00' ∉ target) :
    (d.put (parent ++ [name]) node).IsTree where
  inDirectory place stands h := by
    change (d.nodes.insert _ _).get? place = _ at h
    rw [Table.get?_insert] at h
    split at h
    next heq => exact ⟨parent, name, heq.symm, hname, node?_put_of_directory hfree hparent⟩
    next =>
      obtain ⟨parent', name', heq, hname', hparent'⟩ := hd.inDirectory _ _ h
      exact ⟨parent', name', heq, hname', node?_put_of_directory hfree hparent'⟩
  target place target h := by
    change (d.nodes.insert _ _).get? place = _ at h
    rw [Table.get?_insert] at h
    split at h
    next => exact htarget target (Option.some.inj h)
    next => exact hd.target _ _ h
  working := node?_put_of_directory hfree hd.working

/-- Directories stay where they are when something else is taken out. -/
theorem node?_erase_of_directory (hfree : d.node? place ≠ some .directory)
    (h : d.node? parent = some .directory) :
    ({ d with nodes := d.nodes.erase place } : Disk).node? parent = some .directory := by
  by_cases hroot : parent = []
  · rw [hroot]
    rfl
  · rw [node?_of_ne hroot] at h ⊢
    have hne : place ≠ parent := by
      rintro rfl
      exact hfree (by rwa [node?_of_ne hroot])
    rw [Table.get?_erase, if_neg hne, h]

/-- Taking away what is no directory keeps a tree. -/
theorem IsTree.erase (hd : d.IsTree) (hfree : d.node? place ≠ some .directory) :
    ({ d with nodes := d.nodes.erase place } : Disk).IsTree where
  inDirectory place' stands h := by
    rw [Table.get?_erase] at h
    split at h
    next => cases h
    next =>
      obtain ⟨parent, name, heq, hname, hparent⟩ := hd.inDirectory _ _ h
      exact ⟨parent, name, heq, hname, node?_erase_of_directory hfree hparent⟩
  target place' target h := by
    rw [Table.get?_erase] at h
    split at h
    next => cases h
    next => exact hd.target _ _ h
  working := node?_erase_of_directory hfree hd.working

/-- What is not below a place that is taken out stays. -/
theorem node?_prune (h : ¬ place <+: parent) : (d.prune place).node? parent = d.node? parent := by
  by_cases hparent : parent = []
  · rw [hparent]
    rfl
  · rw [node?_of_ne hparent, node?_of_ne hparent]
    show (d.nodes.keep _).get? parent = _
    rw [Table.get?_keep, if_pos]
    simpa [← List.isPrefixOf_iff_prefix] using h

/-- When a directory is deleted, the way to a spot in it ends above the directory. -/
theorem standing_afterRemoval (hroot : place ≠ []) (s : Spot) :
    ¬ place <+: (s.afterRemoval place).standing ∧
      ∃ n, (s.afterRemoval place).standing = s.standing.take n := by
  have hlength : 0 < place.length := List.length_pos_iff.mpr hroot
  unfold Spot.afterRemoval
  split
  next hbelow =>
    have hle := (List.isPrefixOf_iff_prefix.mp hbelow).length_le
    have hends : ({ s with gone := max s.gone (s.place.length - place.length + 1) } : Spot).standing
        = s.standing.take (place.length - 1) := by
      show s.place.take (s.place.length - max s.gone (s.place.length - place.length + 1)) =
        (s.place.take (s.place.length - s.gone)).take (place.length - 1)
      rw [List.take_take]
      congr 1
      omega
    rw [hends]
    refine ⟨fun hunder => ?_, _, rfl⟩
    have := hunder.length_le
    rw [List.length_take] at this
    omega
  next hbelow =>
    refine ⟨fun hunder => ?_, s.standing.length, List.take_length.symm⟩
    exact hbelow (List.isPrefixOf_iff_prefix.mpr (hunder.trans (List.take_prefix _ _)))

/-- Taking away a directory with all that is below it keeps a tree. -/
theorem IsTree.prune (hd : d.IsTree) (hroot : place ≠ []) : (d.prune place).IsTree where
  inDirectory place' stands h := by
    change (d.nodes.keep _).get? place' = _ at h
    rw [Table.get?_keep] at h
    split at h
    next hkept =>
      obtain ⟨parent, name, rfl, hname, hparent⟩ := hd.inDirectory _ _ h
      refine ⟨parent, name, rfl, hname, ?_⟩
      have hkept' : ¬ place <+: parent := by
        intro hunder
        have hbelow := hunder.trans (List.prefix_append parent [name])
        simp [List.isPrefixOf_iff_prefix.mpr hbelow] at hkept
      rw [node?_prune hkept', hparent]
    next => cases h
  target place' target h := by
    change (d.nodes.keep _).get? place' = _ at h
    rw [Table.get?_keep] at h
    split at h
    next => exact hd.target _ _ h
    next => cases h
  working := by
    obtain ⟨habove, n, hn⟩ := standing_afterRemoval hroot d.workingDirectory
    show (d.prune place).node? (d.workingDirectory.afterRemoval place).standing = _
    rw [node?_prune habove, hn]
    exact hd.take hd.working n

/-! ## What a process can do to a disk -/

/-- Something new can be put where a path arrives at nothing. -/
theorem IsTree.put_vacant (hd : d.IsTree) (h : d.CanArrive (.vacant s name))
    (htarget : ∀ target, node = .link target → '\x00' ∉ target) :
    (d.put (s.place ++ [name]) node).IsTree := by
  obtain ⟨hparent, hname, hnone⟩ := h
  have hfree : d.node? (s.place ++ [name]) = none := hnone
  exact hd.put hparent hname (by simp [hfree]) htarget

/-- Where something else stands, no directory does. -/
theorem node?_ne_directory (hd : d.IsTree) (h : d.nodes.get? place = some node)
    (hnode : node ≠ .directory) : d.node? place ≠ some .directory := by
  obtain ⟨parent, name, rfl, -⟩ := hd.inDirectory _ _ h
  rw [node?_concat, h]
  simpa using hnode

theorem IsTree.makeDirectory (hd : d.IsTree) (p : Path) : (d.makeDirectory p).IsTree := by
  unfold Disk.makeDirectory
  split
  next s name harrive => exact hd.put_vacant (hd.canArrive_of_arrive harrive) (by simp)
  next => exact hd

theorem IsTree.makeDirectories (hd : d.IsTree) (p : Path) : (d.makeDirectories p).IsTree := by
  unfold Disk.makeDirectories
  generalize stages p = paths
  induction paths generalizing d with
  | nil => exact hd
  | cons q paths ih => exact ih (hd.makeDirectory q)

/-- A file that is there can get other bytes. -/
theorem IsTree.put_file (hd : d.IsTree) {old : List UInt8}
    (h : d.CanArrive (.found s (.file old))) (bytes : List UInt8) :
    (d.put s.place (.file bytes)).IsTree := by
  obtain ⟨parent, name, hplace, hname, hparent⟩ := hd.inDirectory _ _ h
  have hfree := node?_ne_directory hd h (by simp)
  rw [hplace] at hfree ⊢
  exact hd.put hparent hname hfree (by simp)

theorem IsTree.write (hd : d.IsTree) (p : Path) (bytes : List UInt8) :
    (d.write p bytes).IsTree := by
  unfold Disk.write
  extract_lets made
  -- the directories above the file are made first
  have hmade : made.IsTree := by
    unfold made
    split
    next q _ => exact hd.makeDirectories q
    next => exact hd
  split
  next s old harrive => exact hmade.put_file (hmade.canArrive_of_arrive harrive) bytes
  next s name harrive =>
    exact hmade.put_vacant (hmade.canArrive_of_arrive harrive) (by simp)
  next => exact hmade

theorem IsTree.removeFile (hd : d.IsTree) (p : Path) : (d.removeFile p).IsTree := by
  unfold Disk.removeFile
  split
  next => exact hd
  next => exact hd
  next s node hnode hreach =>
    have harrive := hd.canArrive_of_locate (locate_of_occupant hreach)
    cases node with
    | directory => exact (hnode rfl).elim
    | file bytes => exact hd.erase (node?_ne_directory hd harrive (by simp))
    | link target => exact hd.erase (node?_ne_directory hd harrive (by simp))

theorem IsTree.removeDirectory (hd : d.IsTree) (p : Path) : (d.removeDirectory p).IsTree := by
  unfold Disk.removeDirectory
  split
  next s hreach =>
    split
    next hthere => exact hd.prune hthere.2
    next => exact hd
  next s target hreach =>
    have hlink : d.nodes.get? s.place = some (.link target) :=
      hd.canArrive_of_locate (locate_of_occupant hreach)
    exact hd.erase (node?_ne_directory hd hlink (by simp))
  next => exact hd

theorem IsTree.makeLink (hd : d.IsTree) (p : Path) (target : List Char) :
    (d.makeLink p target).IsTree := by
  unfold Disk.makeLink
  split
  next s name harrive =>
    split
    next => exact hd
    next hrefused =>
      refine hd.put_vacant (hd.canArrive_of_arrive harrive) ?_
      rintro _ ⟨⟩ hnul
      exact hrefused (.inr (.inl hnul))
  next => exact hd

theorem IsTree.changeDirectory (hd : d.IsTree) (p : Path) : (d.changeDirectory p).IsTree := by
  unfold Disk.changeDirectory
  split
  next s hreach => exact { hd with working := hd.canArrive_of_locate (locate_of_occupant hreach) }
  next => exact hd

end Disk

end NameResolution
