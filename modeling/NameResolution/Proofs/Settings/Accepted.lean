import NameResolution.Proofs.Json.Accepted.Reading
import NameResolution.Proofs.Jsonc.Cleaning
import NameResolution.Proofs.Settings.Document

/-!
# Which documents are accepted

A document that gives settings is JSON behind its comments and commas: with a space in
place of each comment, and without the commas that a closing bracket follows, it is JSON
and gives the same settings (`ofDocument_spaceOut`). Documents with a comment inside a word
or a numeral are set aside, since stripping leaves nothing that would keep its parts from
each other (`comment_in_word_is_accepted`).

The commas that are left out need not be trailing ones. One that stands alone between
brackets is accepted (`lone_comma_is_accepted`), though no JSON has it.
-/

namespace NameResolution

open Json (Tree Written AcceptsSound bind_eq_ok_iff of_map_ok)

namespace Options

/-- Only a sound value is read as a switch. -/
theorem acceptsSound_readFlag : AcceptsSound readFlag := by
  intro t a h
  unfold readFlag at h
  obtain ⟨_, hany, -⟩ := bind_eq_ok_iff.mp h
  exact Tree.isSound_of_readAny _ hany

/-- Only a sound value is read as what an option holds. -/
theorem acceptsSound_readContent (field : OptionField) : AcceptsSound field.readContent := by
  have hstring : AcceptsSound Tree.readString := Tree.acceptsSound_readString
  have hstrings : AcceptsSound (Tree.readList Tree.readString) := Tree.acceptsSound_readList hstring
  have hmap : AcceptsSound (Tree.readMap (Tree.readList Tree.readString)) :=
    Tree.acceptsSound_readMap hstrings
  cases field with
  | target | moduleResolution | baseUrl => exact @hstring
  | paths => exact @hmap
  | typeRoots | types => exact @hstrings
  | traceResolution | allowJs => exact @acceptsSound_readFlag
  | maxNodeModuleJsDepth => exact @Tree.acceptsSound_readCount

theorem acceptsSound_readField (field : OptionField) (o : Options) :
    AcceptsSound (readField field · o) := by
  intro t a h
  simp only [readField_eq] at h
  obtain ⟨_, hvalue⟩ := of_map_ok h
  exact Tree.acceptsSound_readOptional (acceptsSound_readContent field) hvalue

theorem acceptsSound_readOptions : AcceptsSound readOptions :=
  Tree.acceptsSound_readRecord acceptsSound_readField {}

/-- Only a sound value is read as a document. -/
theorem acceptsSound_readDocument : AcceptsSound readDocument :=
  Tree.acceptsSound_readRecord
    (fun _ _ => Tree.acceptsSound_readOptional acceptsSound_readOptions) none

/-- A text that is read is a plain spelling of a document. -/
theorem isPlain_of_ofPlainText {text : List Char} {options : Option Options}
    (h : ofPlainText text = .ok options) : ∃ doc : Written, doc.IsPlain text := by
  unfold ofPlainText at h
  generalize htree : Json.treeOf (Json.tokens text) = outcome at h
  obtain ⟨tree, rest⟩ := outcome
  obtain ⟨_, hdocument, hrest⟩ := bind_eq_ok_iff.mp h
  obtain ⟨_, hfinish, -⟩ := bind_eq_ok_iff.mp hrest
  apply Json.isPlain_of_sound
  · rw [htree]
    exact acceptsSound_readDocument hdocument
  · rw [htree]
    intro t ht
    cases rest with
    | nil => cases ht
    | cons u rest =>
      obtain rfl := Option.some.inj ht
      obtain ⟨lexeme, place⟩ := u
      cases lexeme <;> first | rfl | cases hfinish

end Options

theorem isPlain_strip_of_accepted {document : String} {directory : Path} {settings : Settings}
    (haccepted : Settings.ofDocument document directory = .ok settings) :
    ∃ doc : Written, doc.IsPlain (Jsonc.strip document.toList) := by
  unfold Settings.ofDocument at haccepted
  cases hread : Options.ofPlainText (Jsonc.strip document.toList) with
  | error fault =>
    simp only [hread] at haccepted
    cases haccepted
  | ok options => exact Options.isPlain_of_ofPlainText hread

/-- Two plain spellings of a document give the same settings. -/
theorem ofDocument_of_isPlain {doc : Written} {document text : String} {directory : Path}
    {settings : Settings} (hdocument : doc.IsPlain (Jsonc.strip document.toList))
    (htext : doc.IsPlain text.toList)
    (haccepted : Settings.ofDocument document directory = .ok settings) :
    Settings.ofDocument text directory = .ok settings := by
  have htext' := (Jsonc.isDecorated_of_isPlain htext).isPlain_strip
  have hsame : (Settings.ofDocument text directory).mapError SettingsError.refusal =
      .ok settings := by
    rw [Settings.ofDocument_eq, Options.bared_ofPlainText_congr htext' hdocument,
      ← Settings.ofDocument_eq, haccepted]
    rfl
  cases houtcome : Settings.ofDocument text directory with
  | error e =>
    rw [houtcome] at hsame
    cases hsame
  | ok settings' =>
    rw [houtcome] at hsame
    exact congrArg Except.ok (Except.ok.inj hsame)

/-- **What is accepted is JSON behind its comments and commas.** Take a document that gives
settings, without a comment inside a word or a numeral. With a space in place of each comment, and
without each comma that a closing bracket follows, it is JSON and gives the same settings. If each
of these commas has an element in front of it, they are the trailing commas; and if one has none,
then the document without its trailing commas is not JSON. -/
theorem ofDocument_spaceOut {document : String} {directory : Path} {settings : Settings}
    (haccepted : Settings.ofDocument document directory = .ok settings)
    (hglue : ¬ Jsonc.Glues (Jsonc.glyphs document.toList)) :
    (∃ doc : Written, doc.IsPlain (Jsonc.spaceOut document.toList)) ∧
      Settings.ofDocument (String.ofList (Jsonc.spaceOut document.toList)) directory =
        .ok settings ∧
      (¬ Jsonc.HasLoneComma false (Jsonc.glyphs document.toList) →
        Jsonc.clean document.toList = Jsonc.spaceOut document.toList) ∧
      (Jsonc.HasLoneComma false (Jsonc.glyphs document.toList) →
        ∀ doc : Written, ¬ doc.IsPlain (Jsonc.clean document.toList)) := by
  -- what is accepted is a spelling once it is stripped, and then with spaces for the comments
  obtain ⟨doc, hstripped⟩ := isPlain_strip_of_accepted haccepted
  have hspaced : doc.IsPlain (Jsonc.spaceOut document.toList) :=
    Jsonc.spelled_spaceOut hglue hstripped
  refine ⟨⟨doc, hspaced⟩, ofDocument_of_isPlain hstripped ?_ haccepted, ?_, ?_⟩
  · rwa [String.toList_ofList]
  · exact Jsonc.clean_eq_spaceOut
  · intro hlone doc hdoc
    exact (Jsonc.not_glues_of_isPlain hdoc).2 hlone

theorem ofDocument_of_field {α : Type} {document : String} {directory : Path}
    {field : Settings → α} {a : α}
    (h : (Settings.ofDocument document directory).toOption.map field = some a) :
    ∃ settings, Settings.ofDocument document directory = .ok settings ∧ field settings = a := by
  cases houtcome : Settings.ofDocument document directory with
  | error e =>
    rw [houtcome] at h
    cases h
  | ok settings =>
    rw [houtcome] at h
    exact ⟨settings, rfl, Option.some.inj h⟩

/-- A document with two comments, a comma alone between brackets, and a trailing comma. -/
def commaDocument : String :=
  "\x7b\"compilerOptions\": \x7b\"allowJs\": true /* on */, \"types\": [ /* none */ ,],\x7d\x7d"

/-- The document gives settings; it gives the same ones without both commas, but is not JSON
without the trailing one alone. -/
theorem commaDocument_spaceOut :
    ∃ settings : Settings,
      Settings.ofDocument commaDocument (Path.ofString "/proj") = .ok settings ∧
        settings.types = some [] ∧
        Settings.ofDocument (String.ofList (Jsonc.spaceOut commaDocument.toList))
          (Path.ofString "/proj") = .ok settings ∧
        ∀ doc : Written, ¬ doc.IsPlain (Jsonc.clean commaDocument.toList) := by
  obtain ⟨settings, haccepted, htypes⟩ : ∃ settings : Settings,
      Settings.ofDocument commaDocument (Path.ofString "/proj") = .ok settings ∧
        settings.types = some [] :=
    ofDocument_of_field (by decide +kernel)
  -- each comment has a blank in front of it
  have hglue : ¬ Jsonc.Glues (Jsonc.glyphs commaDocument.toList) :=
    Jsonc.not_glues_of_isChain (by decide +kernel)
  have hlone : Jsonc.HasLoneComma false (Jsonc.glyphs commaDocument.toList) :=
    ⟨(Jsonc.glyphs commaDocument.toList).take 69,
      [.plain ']', .plain ',', .plain '\x7d', .plain '\x7d'], by decide +kernel, rfl,
      by decide +kernel⟩
  obtain ⟨-, hsame, -, hnone⟩ := ofDocument_spaceOut haccepted hglue
  exact ⟨settings, haccepted, htypes, hsame, hnone hlone⟩

/-- A document with a comment inside a word. -/
def gluedDocument : String := "\x7b\"compilerOptions\": \x7b\"allowJs\": tr/**/ue\x7d\x7d"

/-- Documents with a comment inside a word or a numeral have to be set aside: one of them gives
settings, and is not JSON with a space in place of the comment. -/
theorem comment_in_word_is_accepted :
    ¬ ∀ (document : String) (directory : Path) (settings : Settings),
      Settings.ofDocument document directory = .ok settings →
      ∃ doc : Written, doc.IsPlain (Jsonc.spaceOut document.toList) := by
  intro hall
  obtain ⟨settings, haccepted, -⟩ : ∃ settings : Settings,
      Settings.ofDocument gluedDocument (Path.ofString "/proj") = .ok settings ∧
        settings.allowJs = true :=
    ofDocument_of_field (by decide +kernel)
  obtain ⟨doc, hdoc⟩ := hall gluedDocument (Path.ofString "/proj") settings haccepted
  -- there is no comma, so that cleaning gives the same text
  have hlone : ¬ Jsonc.HasLoneComma false (Jsonc.glyphs gluedDocument.toList) := by
    rintro ⟨before, behind, hgs, -⟩
    have hnone : .plain ',' ∉ Jsonc.glyphs gluedDocument.toList := by decide +kernel
    exact hnone (by rw [hgs]; simp)
  rw [← Jsonc.clean_eq_spaceOut hlone] at hdoc
  -- the comment stands between the second letter and the third
  have hglues : Jsonc.Glues (Jsonc.glyphs gluedDocument.toList) :=
    ⟨(Jsonc.glyphs gluedDocument.toList).take 33, 'r',
      [.opener, .comment '*', .comment '*', .comment '/'], 'u',
      [.plain 'e', .plain '\x7d', .plain '\x7d'], by decide +kernel, by simp, by decide, rfl, rfl⟩
  exact (Jsonc.not_glues_of_isPlain hdoc).1 hglues

/-- A document with a comma alone between brackets. -/
def loneDocument : String := "\x7b\"compilerOptions\": \x7b\"types\": [,]\x7d\x7d"

/-- **A comma alone between brackets is accepted.** So what is accepted need not be JSON with
comments and trailing commas. -/
theorem lone_comma_is_accepted :
    ¬ ∀ (document : String) (directory : Path) (settings : Settings),
      Settings.ofDocument document directory = .ok settings →
      (∃ doc : Written, doc.IsPlain (Jsonc.clean document.toList)) ∧
        Settings.ofDocument (String.ofList (Jsonc.clean document.toList)) directory =
          .ok settings := by
  intro hclaim
  obtain ⟨settings, haccepted, -⟩ : ∃ settings : Settings,
      Settings.ofDocument loneDocument (Path.ofString "/proj") = .ok settings ∧
        settings.types = some [] :=
    ofDocument_of_field (by decide +kernel)
  obtain ⟨⟨doc, hdoc⟩, -⟩ := hclaim loneDocument (Path.ofString "/proj") settings haccepted
  -- the comma stands behind the bracket that opens the array
  have hlone : Jsonc.HasLoneComma false (Jsonc.glyphs loneDocument.toList) :=
    ⟨(Jsonc.glyphs loneDocument.toList).take 31, [.plain ']', .plain '\x7d', .plain '\x7d'],
      by decide +kernel, rfl, by decide +kernel⟩
  exact (Jsonc.not_glues_of_isPlain hdoc).2 hlone

end NameResolution
