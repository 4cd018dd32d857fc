import NameResolution.Proofs.Json.Meaning.Record
import NameResolution.Proofs.Settings.Document

/-!
# What a document says

A document says which options it gives, if any (`IsDocument`). This is told from the document as it
is written, without a reader: its one member holds a record of nine fields, and each field has a kind
of its own. A plain text is accepted when the document that it spells says something, and then
as what it says (`ofPlainText_eq_ok_iff`).
-/

namespace NameResolution

open Json (Fault Reads RecordKind SetsFields Tree Written bared bind_eq_ok_iff map_eq_ok_iff)

/-- A switch: one of two words, or a text that says one of them. -/
inductive IsFlag : Written → Bool → Prop where
  | yes : IsFlag (.word .yes) true
  | no : IsFlag (.word .no) false
  | text {v : Written} {text : String} {flag : Bool} (h : v.IsText text)
    (hflag : Options.flagOfText text = .ok flag) : IsFlag v flag

/-- What the value of an option says. -/
def OptionField.Means : (field : OptionField) → Written → field.Content → Prop
  | target | moduleResolution | baseUrl => Written.IsText
  | paths => Written.IsMap (Written.IsList Written.IsText)
  | typeRoots | types => Written.IsList Written.IsText
  | traceResolution | allowJs => IsFlag
  | maxNodeModuleJsDepth => Written.IsCount

namespace Options

/-- Options as a record of nine fields, each of which may be absent. -/
def kind : RecordKind OptionField Options where
  fields := OptionField.all
  distinct := by decide
  fieldOf? := OptionField.ofKey?
  Value := fun field => Option field.Content
  means := fun field => Written.IsOptional field.Means
  start := {}
  get := get
  set := set
  get_set := get_set
  get_set_of_ne := fun o _ _ value h => get_set_of_ne o h value
  ext_get := ext_get
  means_null := by
    intro field x
    rw [get_none]
    exact Written.isOptional_null_iff

/-- A document as a record of one field, which holds options and may be absent. -/
def documentKind : RecordKind Unit (Option Options) where
  fields := [()]
  distinct := by decide
  fieldOf? := sectionOf?
  Value := fun _ => Option Options
  means := fun _ => Written.IsOptional (Written.IsRecord kind)
  start := none
  get := fun given _ => given
  set := fun _ _ given => given
  get_set := fun _ _ _ => rfl
  get_set_of_ne := fun _ _ _ _ h => absurd rfl h
  ext_get := fun h => h ()
  means_null := fun _ _ => Written.isOptional_null_iff

end Options

/-- The options that a document gives, if any. -/
def Json.Written.IsDocument (doc : Written) (given : Option Options) : Prop :=
  doc.IsRecord Options.documentKind given

namespace Options

/-! ## Reading options -/

/-- A switch is read just as what it means. -/
theorem reads_readFlag : Reads readFlag IsFlag := by
  intro v flag
  constructor
  · intro h
    unfold readFlag at h
    obtain ⟨_, -, hflag⟩ := bind_eq_ok_iff.mp h
    cases v with
    | word w =>
      cases w with
      | null => cases hflag
      | yes =>
        obtain rfl := Except.ok.inj hflag
        exact .yes
      | no =>
        obtain rfl := Except.ok.inj hflag
        exact .no
    | quoted strokes =>
      cases hkept : Json.keptText strokes with
      | error f =>
        simp only [Written.tree, hkept] at hflag
        cases hflag
      | ok text =>
        simp only [Written.tree, hkept] at hflag
        exact .text (.intro (Json.keptText_eq_ok_iff.mp hkept)) hflag
    | _ => cases hflag
  · intro h
    cases h with
    | yes => rfl
    | no => rfl
    | text h hflag =>
      obtain ⟨htext⟩ := h
      unfold readFlag
      rw [Written.tree, Json.keptText_eq_ok_iff.mpr htext]
      exact bind_eq_ok_iff.mpr ⟨(), rfl, hflag⟩

/-- An option is read just as what it means. -/
theorem reads_readContent (field : OptionField) : Reads field.readContent field.Means := by
  have hstring : Reads Tree.readString Written.IsText := Json.reads_readString
  cases field with
  | target | moduleResolution | baseUrl => exact hstring
  | paths => exact hstring.readList.readMap
  | typeRoots | types => exact hstring.readList
  | traceResolution | allowJs => exact reads_readFlag
  | maxNodeModuleJsDepth => exact Json.reads_readCount

/-- Reading a field sets it, and nothing else. -/
theorem setsFields_readField : SetsFields kind readField := by
  intro field v o o'
  rw [readField_eq, map_eq_ok_iff]
  exact exists_congr fun x => and_congr_left' ((reads_readContent field).readOptional v x)

/-- Options are read just as the record they are. -/
theorem reads_readOptions : Reads readOptions (Written.IsRecord kind) :=
  Json.reads_readRecord setsFields_readField

/-- A document is read just as what it says. -/
theorem reads_readDocument : Reads readDocument Written.IsDocument := by
  apply Json.reads_readRecord (R := documentKind)
  intro _ v _ given
  rw [reads_readOptions.readOptional v given]
  exact ⟨fun h => ⟨given, h, rfl⟩, fun ⟨_, h, hgiven⟩ => hgiven ▸ h⟩

/-- A plain spelling of a document is accepted when the document says something, and as what it
says. -/
theorem ofPlainText_eq_ok_iff {doc : Written} {text : List Char} (h : doc.IsPlain text)
    {given : Option Options} : ofPlainText text = .ok given ↔ doc.IsDocument given := by
  have hread : bared (ofPlainText text) = readDocument doc.tree := by
    rw [bared_ofPlainText, ofTokens, h.treeOf_tokens]
    -- nothing is left behind the document but its end
    show (readDocument doc.tree >>= fun options => pure options) = _
    exact bind_pure _
  rw [← reads_readDocument doc given, ← hread]
  cases ofPlainText text <;> simp

end Options

end NameResolution
