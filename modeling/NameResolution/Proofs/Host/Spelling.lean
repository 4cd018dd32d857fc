import NameResolution.Proofs.Host.Membership
import NameResolution.Proofs.Host.Recording
import NameResolution.Proofs.Path.Canonical

/-!
# Spellings of one file

The caches know a file by its key only, so a host forgets a file under all spellings that
have the key. Keys of names on no drive are canonical: a relative name has the key of its
absolute spelling, and removing the file under one of the two drops what the other cached
(`key_is_canonical`).
-/

namespace NameResolution

/-- Removing a file drops what was cached for it, under every name with its key. -/
theorem Host.hasCached_removeFile (h : Host) {c : Collaborators} {file spelled : String}
    (hkey : (c.keyOf file).value = (c.keyOf spelled).value) :
    ((h.removeFile c spelled).2.hasCached c file).value = false := by
  rw [Host.hasCached_value, hkey]
  show ((h.modules.remove (c.keyOf spelled).value).2.contains (c.keyOf spelled).value ||
    (h.types.remove (c.keyOf spelled).value).2.contains (c.keyOf spelled).value) = false
  rw [Cache.contains_remove, Cache.contains_remove]
  simp

/-- **Keys are canonical.** Under either case policy, seen from an absolute directory without
backslashes, a name on no drive has a canonical key, which is its own key from anywhere. A relative
name has the key of its absolute spelling, so that a host forgets the file under both when it is
removed under either. -/
theorem key_is_canonical (policy : CasePolicy) {cwd : Path} (habs : cwd.isAbsolute = true)
    (hcwd : '\\' ∉ cwd.spelling) {name : List Char} (hdrive : startsOnDrive name = false) :
    IsCanonical (CanonicalKey.of policy cwd name).text ∧
    (∀ directory : Path, CanonicalKey.of policy directory (CanonicalKey.of policy cwd name).text =
      CanonicalKey.of policy cwd name) ∧
    (name.head? ≠ some '/' → name.head? ≠ some '\\' →
      (∀ directory : Path, CanonicalKey.of policy cwd name =
        CanonicalKey.of policy directory (cwd.spelling ++ '/' :: name)) ∧
      ∀ (h : Host) (c : Collaborators) (near far : String), c.files.casePolicy = policy →
        c.files.currentDirectory.value = cwd → near.toList = name →
        far.toList = cwd.spelling ++ '/' :: name →
        ((h.removeFile c near).2.hasCached c far).value = false ∧
          ((h.removeFile c far).2.hasCached c near).value = false) := by
  have hplace := CanonicalKey.isCanonical_place habs hcwd hdrive
  have hplain : '\\' ∉ (CanonicalKey.place cwd name).spelling := CanonicalKey.not_mem_place hcwd
  have hkey := CanonicalKey.of_eq_fold hplain policy
  refine ⟨?_, ?_, ?_⟩
  · rw [hkey]
    exact hplace.fold policy
  · intro directory
    rw [hkey]
    exact CanonicalKey.of_isCanonical (hplace.fold policy) (fold_fold _ policy) directory
  · intro hslash hback
    have hrel : isRooted (unifySlashes name) = false := by
      rw [isRooted_eq, startsOnDrive_unifySlashes, hdrive, Bool.or_false]
      cases name with
      | nil => rfl
      | cons x name =>
        have hx : x ≠ '/' := fun he => hslash (by rw [he]; rfl)
        have hx' : x ≠ '\\' := fun he => hback (by rw [he]; rfl)
        simp [unifySlashes, hx, hx']
    have hsame : ∀ directory : Path, CanonicalKey.of policy cwd name =
        CanonicalKey.of policy directory (cwd.spelling ++ '/' :: name) := by
      intro directory
      rw [CanonicalKey.of_eq, CanonicalKey.of_eq,
        CanonicalKey.normalise_place_absolute habs hcwd hrel]
    refine ⟨hsame, ?_⟩
    intro h c near far hpolicy hdirectory hnear hfar
    have hkeys : (c.keyOf near).value = (c.keyOf far).value := by
      show CanonicalKey.of c.files.casePolicy c.files.currentDirectory.value near.toList =
        CanonicalKey.of c.files.casePolicy c.files.currentDirectory.value far.toList
      rw [hpolicy, hdirectory, hnear, hfar, hsame cwd]
    exact ⟨h.hasCached_removeFile hkeys.symm, h.hasCached_removeFile hkeys⟩

/-- What a host works with where letter case is not told apart, in a directory whose spelling ends in
two slashes. -/
def Collaborators.caseless : Collaborators :=
  { Collaborators.bare with
    files := ({} : FileMap).fileSystem .insensitive ⟨"/Work//".toList⟩ ⟨[]⟩ "\n" }

/-- A name with backslashes, dots and doubled slashes, and letters that become another one at the
end of a word, or two. What is cached under it is dropped under its absolute spelling. -/
theorem tangled_key_is_canonical :
    ∃ (near far key : String) (h : Host),
      near = "..\\.\\ΟΔΟΣ//İ\\Σ" ∧ far = "/Work///..\\.\\ΟΔΟΣ//İ\\Σ" ∧ key = "/οδος/i̇/σ" ∧
      h = (Host.new {}).after [⟨.caseless, .resolveModules [] near⟩] ∧
      CanonicalKey.of .insensitive ⟨"/Work//".toList⟩ near.toList = ⟨key.toList⟩ ∧
      IsCanonical key.toList ∧
      CanonicalKey.of .insensitive ⟨"elsewhere".toList⟩ key.toList = ⟨key.toList⟩ ∧
      CanonicalKey.of .insensitive ⟨"elsewhere".toList⟩ far.toList = ⟨key.toList⟩ ∧
      (h.hasCached .caseless far).value = true ∧
      ((h.removeFile .caseless far).2.hasCached .caseless near).value = false := by
  have hkey : CanonicalKey.of .insensitive ⟨"/Work//".toList⟩ "..\\.\\ΟΔΟΣ//İ\\Σ".toList =
      ⟨"/οδος/i̇/σ".toList⟩ := by decide +kernel
  have h := @key_is_canonical .insensitive ⟨"/Work//".toList⟩ (by decide) (by decide)
    "..\\.\\ΟΔΟΣ//İ\\Σ".toList (by decide)
  rw [hkey] at h
  obtain ⟨hcanonical, hfixed, hrel⟩ := h
  obtain ⟨hsame, hforgets⟩ := hrel (by decide) (by decide)
  refine ⟨_, _, _, _, rfl, rfl, rfl, rfl, hkey, hcanonical, hfixed _, (hsame _).symm, ?_, ?_⟩
  · decide +kernel
  · exact (hforgets _ .caseless _ _ rfl rfl rfl (by decide)).2

end NameResolution
