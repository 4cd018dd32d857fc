import NameResolution.Proofs.Json.Reading
import NameResolution.Proofs.Json.Token
import NameResolution.Proofs.Jsonc.Decoration
import NameResolution.Proofs.Settings.Fields
import NameResolution.Settings.Document

/-!
# Decorations do not change settings

What a document gives is settled by its pieces: the settings, the option that is
refused, or the category in which the document itself is refused. Comments, blanks
and trailing commas leave the pieces as they are, so a decorated document gives what
a plain spelling of it gives.

A plain text is read by its tokens, and reading does not look at places
(`bared_ofPlainText`); the tokens of a plain spelling are those of its pieces.
-/

namespace NameResolution

open Json (Fault Tree Token Piece Written bared IgnoresPlaces)

namespace Options

/-! ## Reading options does not look at places -/

theorem bared_flagOfText (text : String) : bared (flagOfText text) = flagOfText text := by
  unfold flagOfText
  split <;> rfl

/-- Reading a switch ignores places. -/
theorem readFlag_bare : IgnoresPlaces readFlag := fun t => by
  unfold readFlag
  rw [Json.bared_bind, Tree.readAny_bare]
  congr 1
  funext _
  cases t with
  | word w =>
    cases w with
    | error f => rfl
    | ok w => cases w <;> rfl
  | quoted k s =>
    cases k with
    | error f => rfl
    | ok text => exact (bared_flagOfText _).symm
  | _ => rfl

/-- Reading what an option holds ignores places. -/
theorem readContent_bare (field : OptionField) : IgnoresPlaces field.readContent := by
  have hstring : IgnoresPlaces Tree.readString := Tree.readString_bare
  have hstrings : IgnoresPlaces (Tree.readList Tree.readString) := Tree.readList_bare hstring
  cases field with
  | target | moduleResolution | baseUrl => exact hstring
  | paths => exact Tree.readMap_bare hstrings
  | typeRoots | types => exact hstrings
  | traceResolution | allowJs => exact readFlag_bare
  | maxNodeModuleJsDepth => exact Tree.readCount_bare

theorem readField_bare (field : OptionField) (o : Options) :
    IgnoresPlaces (readField field · o) := fun t => by
  simp only [readField_eq, Json.bared_map, Tree.readOptional_bare (readContent_bare field) t]

theorem readOptions_bare : IgnoresPlaces readOptions :=
  Tree.readRecord_bare (fun f r => readField_bare f r) {}

/-- Reading a document ignores places. -/
theorem readDocument_bare : IgnoresPlaces readDocument :=
  Tree.readRecord_bare (fun _ _ => Tree.readOptional_bare readOptions_bare) none

theorem readFinish_bare (ts : List Token) :
    readFinish (ts.map Token.bare) = bared (readFinish ts) := by
  match ts with
  | [] => rfl
  | ⟨lexeme, behind⟩ :: ts => cases lexeme <;> rfl

def ofTokens (ts : List Token) : Except Fault (Option Options) := do
  let (tree, rest) := Json.treeOf ts
  let options ← readDocument tree
  readFinish rest
  return options

/-- Bare tokens are read as the tokens are, but for the place of a fault. -/
theorem ofTokens_bare (ts : List Token) : ofTokens (ts.map Token.bare) = bared (ofTokens ts) := by
  unfold ofTokens
  rw [Json.treeOf_bare]
  simp [readDocument_bare (Json.treeOf ts).1, readFinish_bare]

/-- A plain text is read by its tokens, whose places do not matter. -/
theorem bared_ofPlainText (text : List Char) :
    bared (ofPlainText text) = ofTokens ((Json.tokens text).map Token.bare) :=
  (ofTokens_bare (Json.tokens text)).symm

/-- Two plain spellings of a document are read alike. -/
theorem bared_ofPlainText_congr {doc : Written} {text text' : List Char} (h : doc.IsPlain text)
    (h' : doc.IsPlain text') : bared (ofPlainText text) = bared (ofPlainText text') := by
  rw [bared_ofPlainText, bared_ofPlainText, Json.Spelled.tokens_bare h doc.orderly,
    Json.Spelled.tokens_bare h' doc.orderly]

end Options

/-! ## Refusals -/

/-- The categories of faults of a document. -/
inductive Json.Category where
  | malformed
  | unfinished
  | data
deriving Repr, DecidableEq

def Json.Report.category : Json.Report → Json.Category
  | .malformed _ => .malformed
  | .unfinished _ => .unfinished
  | .mistyped | .badFlag _ => .data

/-- Why a document gives no settings: the category of its fault, or the option that is refused. -/
inductive Refusal where
  | document (category : Json.Category)
  | option (error : SettingsError)
deriving DecidableEq

def SettingsError.refusal : SettingsError → Refusal
  | .document report => .document report.category
  | e => .option e

/-- The category of a report does not depend on the place. -/
theorem category_report (f : Fault) (text : List Char) :
    (f.report text).category = (f.bare.report []).category := by
  cases f <;> rfl

namespace Settings

/-- The settings that an outcome of reading leads to. -/
def ofOutcome (directory : Path) : Except Fault (Option Options) → Except Refusal Settings
  | .error f => .error (.document (f.report []).category)
  | .ok none => .ok {}
  | .ok (some options) => (ofOptions directory options).mapError SettingsError.refusal

/-- A document gives what its stripped text gives, and the place of a fault does not matter. -/
theorem ofDocument_eq (document : String) (directory : Path) :
    (ofDocument document directory).mapError SettingsError.refusal =
      ofOutcome directory (bared (Options.ofPlainText (Jsonc.strip document.toList))) := by
  simp only [ofDocument]
  generalize Jsonc.strip document.toList = text
  cases Options.ofPlainText text with
  | error f => exact congrArg (Except.error ∘ Refusal.document) (category_report f text)
  | ok options => cases options <;> rfl

end Settings

/-- **Decorations do not change settings.** A document with comments, blanks and trailing commas
gives the same settings as a plain spelling of it, or the same option is refused, or both are
refused in the same category. -/
theorem ofDocument_decorated {doc : Written} {plain decorated : String}
    (hplain : doc.IsPlain plain.toList) (hdecorated : Jsonc.IsDecorated doc decorated.toList)
    (directory : Path) :
    (Settings.ofDocument decorated directory).mapError SettingsError.refusal =
      (Settings.ofDocument plain directory).mapError SettingsError.refusal := by
  -- stripping both leaves two plain spellings of the same document
  have hplain' := (Jsonc.isDecorated_of_isPlain hplain).isPlain_strip
  rw [Settings.ofDocument_eq, Settings.ofDocument_eq,
    Options.bared_ofPlainText_congr hdecorated.isPlain_strip hplain']

/-- The strokes of a text that needs no escapes. -/
def Json.strokesOf (text : String) : List Json.Stroke :=
  text.toList.filterMap fun c =>
    if h : 0x20 ≤ c.toNat ∧ c ≠ '"' ∧ c ≠ '\\' then some (.plain c h) else none

/-- Settings given as arrays. A quote and a bracket stand in comments, a comment mark in a text;
there are two trailing commas, one of them with a comment behind it, and the last comment goes up
to the end. -/
theorem commented_ofDocument_decorated :
    ∃ (doc : Written) (plain decorated : String),
      plain = "[[\"es6\", null, \"a//b\"]]" ∧
      decorated = "[[\"es6\"/*\"]*/, null, \"a//b\",//]\n],]//" ∧
      doc.IsPlain plain.toList ∧ Jsonc.IsDecorated doc decorated.toList ∧
      (Settings.ofDocument decorated (Path.ofString "/proj")).mapError SettingsError.refusal =
        (Settings.ofDocument plain (Path.ofString "/proj")).mapError SettingsError.refusal := by
  let inner : Written := .array (.cons (.quoted (Json.strokesOf "es6"))
    (.cons (.word .null) (.cons (.quoted (Json.strokesOf "a//b")) .nil)))
  have hplain : (Written.array (.cons inner .nil)).IsPlain
      "[[\"es6\", null, \"a//b\"]]".toList := by
    have hempty : Json.Blank [] := by simp [Json.Blank]
    have hspace : Json.Blank [' '] := by simp [Json.Blank, Json.isGap]
    exact .cons hempty <| .cons hempty <| .cons hempty <| .cons hempty <| .cons hspace <|
      .cons hempty <| .cons hspace <| .cons hempty <| .cons hempty <| .nil hempty
  have hdecorated : Jsonc.IsDecorated (Written.array (.cons inner .nil))
      "[[\"es6\"/*\"]*/, null, \"a//b\",//]\n],]//".toList := by
    refine ⟨_, .keep _ <| .keep _ <| .keep _ <| .keep _ <| .keep _ <| .keep _ <|
      .comma rfl rfl <| .comma rfl rfl <| .keep _ .nil, ?_⟩
    have hspace : Jsonc.Gap [' '] := .blank _ rfl .nil
    have hblock : Jsonc.Gap "/*\"]*/".toList := .block ['"', ']'] (by decide) .nil
    have hline : Jsonc.Gap "//]\n".toList := Jsonc.Gap.line [']'] (by decide) .nil
    exact .cons .nil <| .cons .nil <| .cons .nil <| .cons hblock <| .cons hspace <| .cons .nil <|
      .cons hspace <| .cons .nil <| .cons hline <| .cons .nil <| .cons .nil <|
      .nil (Jsonc.LastGap.line .nil [] (by simp))
  exact ⟨_, _, _, rfl, rfl, hplain, hdecorated, ofDocument_decorated hplain hdecorated _⟩

end NameResolution
