import NameResolution.Key
import NameResolution.Proofs.Path.Collapse

/-!
# What a canonical key keeps of a file name

The caches know a file by its key, and the loaders see the name as it was written.
Where the file system tells cases apart, and neither the name nor the current
directory has a backslash, the key names the same place as the name does
(`anchor_key`). Two spellings with one key are therefore seen as one file.
-/

namespace NameResolution

theorem unifySlashes_of_not_mem {name : List Char} (h : '\\' ∉ name) :
    unifySlashes name = name := by
  unfold unifySlashes
  rw [List.map_congr_left (g := id), List.map_id]
  intro c hc
  have hne : c ≠ '\\' := fun he => h (he ▸ hc)
  rw [if_neg hne]
  rfl

/-- Normalising brings no backslash in, so that nothing is left to unify. -/
theorem unifySlashes_normalise {p : Path} (h : '\\' ∉ p.spelling) :
    unifySlashes p.normalise.spelling = p.normalise.spelling := by
  refine unifySlashes_of_not_mem fun hmem => ?_
  rcases Path.mem_normalise_spelling hmem with hslash | hp
  · exact absurd hslash (by decide)
  · exact h hp

/-- The key of a name without a backslash is a normal form: of the name as it is, when it is
rooted, and of the name behind the current directory otherwise. -/
theorem key_eq_normalise {cwd : Path} (hcwd : '\\' ∉ cwd.spelling) {name : List Char}
    (hname : '\\' ∉ name) :
    (⟨(CanonicalKey.of .sensitive cwd name).text⟩ : Path) =
      (if isRooted name || cwd.spelling.isEmpty then ⟨name⟩
        else cwd.join ⟨name⟩ : Path).normalise := by
  unfold CanonicalKey.of
  rw [unifySlashes_of_not_mem hname]
  refine congrArg Path.mk (unifySlashes_normalise ?_)
  split
  next => exact hname
  next =>
    intro hmem
    rcases Path.mem_join_spelling hmem with h | h | h
    · exact absurd h (by decide)
    · exact hcwd h
    · exact hname h

/-- The key of a file names the place that the file's name does. -/
theorem anchor_key {cwd : Path} (habs : cwd.isAbsolute = true) (hcwd : '\\' ∉ cwd.spelling)
    {name : List Char} (hname : '\\' ∉ name) :
    cwd.anchor ⟨(CanonicalKey.of .sensitive cwd name).text⟩ = cwd.anchor ⟨name⟩ := by
  rw [key_eq_normalise hcwd hname, Path.anchor_normalise]
  split
  next => rfl
  next => exact Path.anchor_join habs ⟨name⟩

end NameResolution
