import NameResolution.FileMap
import NameResolution.Proofs.Path.Child

/-!
# The directories of a file map

A file map knows its files by their components, and shows each under a spelling with
these components (`FileMap.IsSpelled`). A directory is whatever lies properly above a
file; the subdirectories of a path are those of its children that are directories
(`IsSpelled.lists`).
-/

namespace NameResolution

namespace FileMap

variable {m : FileMap} {p c : Path} {base file : List Component} {x : Component}

/-- Every file is shown with a spelling of the components it is known by. -/
def IsSpelled (m : FileMap) : Prop :=
  ∀ k shown, m.files.get? k = some shown → shown.1.components = k

theorem isSpelled_empty : ({} : FileMap).IsSpelled := by
  intro k shown h
  cases h

theorem IsSpelled.insert (hm : m.IsSpelled) (p : Path) (text : String) :
    (m.insert p text).IsSpelled := by
  intro k shown h
  change (m.files.insert p.components _).get? k = _ at h
  rw [Table.get?_insert] at h
  split at h
  next hk =>
    cases h
    cases hold : m.files.get? p.components with
    | none => exact hk
    | some old => exact (hm _ _ hold).trans hk
  next => exact hm _ _ h

theorem IsSpelled.erase (hm : m.IsSpelled) (p : Path) : (m.erase p).IsSpelled := by
  intro k shown h
  change (m.files.erase p.components).get? k = _ at h
  rw [Table.get?_erase] at h
  split at h
  next => cases h
  next => exact hm _ _ h

/-- Every file of a spelled map has a path. -/
theorem IsSpelled.exists_path (hm : m.IsSpelled) {k : List Component} (h : k ∈ m.files.keys) :
    ∃ q : Path, q.components = k := by
  obtain ⟨shown, hshown⟩ := Option.isSome_iff_exists.mp (Table.look_isSome_iff.mpr h)
  exact ⟨shown.1, hm k shown hshown⟩

/-- A file is more than one step below a base. -/
theorem firstStep?_eq_some_iff :
    firstStep? base file = some x ↔ ∃ y rest, file = base ++ x :: y :: rest := by
  unfold firstStep?
  constructor
  · intro h
    split at h
    next hbase =>
      obtain ⟨tail, rfl⟩ := List.isPrefixOf_iff_prefix.mp hbase
      rw [List.drop_left] at h
      match tail, h with
      | _ :: second :: rest, rfl => exact ⟨second, rest, rfl⟩
    next => cases h
  · rintro ⟨y, rest, rfl⟩
    rw [if_pos (List.isPrefixOf_iff_prefix.mpr (List.prefix_append _ _)), List.drop_left]

/-- A directory is what lies properly above some file. -/
theorem directoryExists_iff :
    m.directoryExists p = true ↔ ∃ k ∈ m.files.keys, ∃ y rest, k = p.components ++ y :: rest := by
  unfold directoryExists
  rw [List.any_eq_true]
  refine exists_congr fun k => and_congr_right fun _ => ?_
  rw [Bool.and_eq_true, List.isPrefixOf_iff_prefix, bne_iff_ne]
  constructor
  · rintro ⟨⟨tail, rfl⟩, hne⟩
    cases tail with
    | nil => exact absurd (List.append_nil _) hne
    | cons y rest => exact ⟨y, rest, rfl⟩
  · rintro ⟨y, rest, rfl⟩
    refine ⟨List.prefix_append _ _, fun h => ?_⟩
    simpa using congrArg List.length h

/-- The subdirectories of a path are its children that are directories, in ascending order and each
once. -/
theorem IsSpelled.lists (hm : m.IsSpelled) (p : Path) :
    (m.subdirectories p).Pairwise (fun a b => a.compare b = .lt) ∧
      ∀ c, c ∈ m.subdirectories p ↔ (∃ x, p.IsChild x c) ∧ m.directoryExists c = true := by
  refine Path.lists_children (fun c => ?_) fun c hc => hc.1
  rw [List.mem_filterMap, directoryExists_iff]
  constructor
  · rintro ⟨k, hk, hc⟩
    obtain ⟨x, hfirst, rfl⟩ := Option.map_eq_some_iff.mp hc
    obtain ⟨y, rest, rfl⟩ := firstStep?_eq_some_iff.mp hfirst
    obtain ⟨q, hq⟩ := hm.exists_path hk
    have hchild := Path.isChild_of_components hq
    refine ⟨⟨x, hchild⟩, _, hk, y, rest, ?_⟩
    rw [hchild.components, List.append_assoc]
    rfl
  · rintro ⟨⟨x, hchild⟩, k, hk, y, rest, rfl⟩
    refine ⟨_, hk, Option.map_eq_some_iff.mpr ⟨x, ?_, hchild.spelled.symm⟩⟩
    rw [firstStep?_eq_some_iff, hchild.components, List.append_assoc]
    exact ⟨y, rest, rfl⟩

end FileMap

end NameResolution
