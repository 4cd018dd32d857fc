import NameResolution.Proofs.Path.Collapse
import NameResolution.Settings.Document

/-!
# Paths of options, seen from their directory

Options that hold a path are seen from the directory of their document, in normal form.
Since normal forms compose with joining (`Path.normalise_join`), it makes no difference
whether the directory or the value is normalised beforehand: two spellings of a directory
with one normal form give every document the same settings, or the same error
(`normal_forms_compose`).
-/

namespace NameResolution

namespace Settings

/-- Directories with one normal form see every value as the same path. -/
theorem anchored_congr {directory directory' : Path}
    (h : directory.normalise.same directory'.normalise = true) :
    anchored directory = anchored directory' := by
  funext value
  rw [anchored, anchored, ← Path.normalise_anchor directory, ← Path.normalise_anchor directory',
    Path.normalise_eq_of_same h]

/-- A directory has no part in a document but through the paths that are seen from it. -/
theorem ofDocument_congr {directory directory' : Path}
    (h : anchored directory = anchored directory') (document : String) :
    ofDocument document directory = ofDocument document directory' := by
  have hoptions : ofOptions directory = ofOptions directory' := by
    funext options
    unfold ofOptions
    rw [h]
  unfold ofDocument
  rw [hoptions]

end Settings

/-- **Normal forms compose with joining.** Both parts of a path may be normalised before they are
joined. So a document gives the same settings or the same error in two directories with one normal
form, and the value of an option may be normalised before it is seen from the directory. -/
theorem normal_forms_compose :
    (∀ base tail : Path,
      (base.join tail).normalise = (base.normalise.join tail.normalise).normalise) ∧
    (∀ directory directory' : Path, directory.normalise.same directory'.normalise = true →
      ∀ document : String,
        Settings.ofDocument document directory = Settings.ofDocument document directory') ∧
    (∀ (directory : Path) (value : String),
      Settings.anchored directory (Path.ofString value).normalise.toString =
        Settings.anchored directory value) := by
  refine ⟨fun base tail => (Path.normalise_join base tail).symm, ?_, ?_⟩
  · intro directory directory' h document
    exact Settings.ofDocument_congr (Settings.anchored_congr h) document
  · intro directory value
    have hread : Path.ofString (Path.ofString value).normalise.toString =
        (Path.ofString value).normalise := by
      simp [Path.ofString, Path.toString]
    rw [Settings.anchored, hread, Path.anchor_normalise]
    rfl

/-- Two spellings of a directory that are not the same path, and have one normal form. -/
theorem respelled_normal_forms_compose :
    ∃ document : String,
      document = "\x7b\"compilerOptions\": \x7b\"baseUrl\": \"../src\", \"typeRoots\": [\".\"]\x7d\x7d" ∧
      (Path.ofString "lib/../").same (Path.ofString "./") = false ∧
      (Path.ofString "lib/../").normalise.same (Path.ofString "./").normalise = true ∧
      Settings.ofDocument document (Path.ofString "lib/../") =
        Settings.ofDocument document (Path.ofString "./") := by
  have hdirectories :
      (Path.ofString "lib/../").normalise.same (Path.ofString "./").normalise = true := by decide
  exact ⟨_, rfl, by decide, hdirectories, normal_forms_compose.2.1 _ _ hdirectories _⟩

end NameResolution
