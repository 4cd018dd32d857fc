import NameResolution.Proofs.Disk.Tree

/-!
# The subdirectories of a directory

On a tree, the listing of a directory's subdirectories holds its children at which a
directory itself stands, in ascending order and each once (`IsTree.lists`).
-/

namespace NameResolution

namespace Disk

variable {d : Disk} {s t : Spot} {name : List Char} {node : Node} {p c : Path} {l : List Path}

/-- What stands directly in a directory stands there under its name. -/
theorem mem_children_iff :
    (name, node) ∈ d.children s ↔ s.gone = 0 ∧ d.nodes.get? (s.place ++ [name]) = some node := by
  unfold children
  by_cases hgone : s.gone = 0
  · rw [if_pos hgone, and_iff_right hgone, List.mem_filterMap]
    constructor
    · rintro ⟨⟨place, stands⟩, hentry, hchild⟩
      unfold childOf? at hchild
      split at hchild
      next last hlast =>
        split at hchild
        next hparent =>
          cases hchild
          obtain ⟨front, rfl⟩ := List.getLast?_eq_some_iff.mp hlast
          obtain rfl : front = s.place := by simpa using hparent
          exact Table.look_of_mem d.nodes.distinct hentry
        next => cases hchild
      next => cases hchild
    · intro h
      refine ⟨(s.place ++ [name], node), Table.mem_of_look h, ?_⟩
      simp [childOf?]
  · simp [hgone]

/-- A path is a subdirectory if it is a child and a directory itself stands there. -/
def IsSubdirectory (d : Disk) (p c : Path) : Prop :=
  (∃ name, p.IsChild (.name name) c) ∧ d.Stands c .directory

/-- On a tree, what stands in a directory and what stands at its children is the same. -/
theorem IsTree.isSubdirectory_iff (hd : d.IsTree) (hp : d.LeadsTo p t) :
    d.IsSubdirectory p c ↔ ∃ name, (name, .directory) ∈ d.children t ∧ c = p.join ⟨name⟩ := by
  obtain ⟨hplain, hne⟩ := locate_ok hp
  constructor
  · rintro ⟨⟨name, hchild⟩, hstands⟩
    obtain ⟨-, hadmits, hat⟩ := (hp.stands_iff hchild).mp hstands
    rw [at?, Spot.below, node?_concat] at hat
    exact ⟨name, mem_children_iff.mpr ⟨hadmits.1, hat⟩, hchild.spelled⟩
  · rintro ⟨name, hmem, rfl⟩
    obtain ⟨hgone, hget⟩ := mem_children_iff.mp hmem
    have hname := (hd.entry (node?_concat.trans hget)).1
    have hchild := Path.isChild_join hne hname.isStep
    refine ⟨⟨name, hchild⟩, (hp.stands_iff hchild).mpr ⟨?_, ⟨hgone, hname.fits⟩, ?_⟩⟩
    · exact Path.not_mem_join (by decide) hplain hname.plain
    · rw [at?, Spot.below, node?_concat, hget]

/-- A listing holds the subdirectories, in ascending order and each once. -/
theorem IsTree.lists (hd : d.IsTree) (h : d.subdirectories p = .ok l) :
    l.Pairwise (fun a b => a.compare b = .lt) ∧ ∀ c, c ∈ l ↔ d.IsSubdirectory p c := by
  unfold subdirectories at h
  split at h
  next => cases h
  next t hreach =>
    cases h
    have hp : d.LeadsTo p t := (reach_eq_ok_iff.mp hreach).2
    refine Path.lists_children (fun c => ?_) fun c ⟨⟨name, hchild⟩, _⟩ => ⟨_, hchild⟩
    rw [hd.isSubdirectory_iff hp, List.mem_filterMap]
    constructor
    · rintro ⟨⟨name, node⟩, hmem, hc⟩
      cases node with
      | directory => exact ⟨name, hmem, (Option.some.inj hc).symm⟩
      | file bytes => cases hc
      | link target => cases hc
    · rintro ⟨name, hmem, rfl⟩
      exact ⟨(name, .directory), hmem, rfl⟩
  next => cases h

/-- The child of a directory is a directory for the process if it is listed, or a link that leads
to one, and its path is not too long. -/
theorem IsTree.directoryExists_child_iff (hd : d.IsTree) (h : d.subdirectories p = .ok l)
    (hchild : p.IsChild (.name name) c) :
    d.directoryExists c = true ↔ byteLength c.spelling < pathLimit ∧
      (c ∈ l ∨ (∃ target, d.Stands c (.link target)) ∧ ∃ u, d.LeadsTo c u) := by
  have hlisted : c ∈ l ↔ d.Stands c .directory := by
    rw [(hd.lists h).2, IsSubdirectory, and_iff_right ⟨name, hchild⟩]
  have hp : ∃ t, d.LeadsTo p t := by
    unfold subdirectories at h
    split at h
    next => cases h
    next t hreach => exact ⟨t, (reach_eq_ok_iff.mp hreach).2⟩
    next => cases h
  obtain ⟨t, hp⟩ := hp
  rw [directoryExists_iff, hlisted, ← hp.child_leadsTo_iff hchild]

end Disk

end NameResolution
