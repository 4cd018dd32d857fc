import Mathlib.Logic.Relation
import NameResolution.Proofs.Json.Meaning.Rearranging
import NameResolution.Proofs.Settings.Faithful

/-!
# Members of a document in any order

The order of a document's members, members that are not known, and members that are `null` make no
difference, be it among the document's own members or among those of its options
(`ofDocument_rearranged`). Each single change leaves what the document says as it is
(`isDocument_iff_of_rearranges`), and so does any number of them, done or undone.
-/

namespace NameResolution

open Json (Rearranges StandsFor Stroke Written)

/-- One change of a document that leaves what it says: among its own members, or among those of its
options. -/
inductive RearrangesDocument : Written → Written → Prop where
  | members {l l' : List (List Stroke × Written)} (h : Rearranges Options.documentKind l l') :
    RearrangesDocument (.object (.ofList l)) (.object (.ofList l'))
  | options {before behind l l' : List (List Stroke × Written)} {key : List Stroke}
    (hkey : StandsFor key "compilerOptions".toList) (h : Rearranges Options.kind l l') :
    RearrangesDocument (.object (.ofList (before ++ (key, .object (.ofList l)) :: behind)))
      (.object (.ofList (before ++ (key, .object (.ofList l')) :: behind)))

theorem isRecord_iff_of_rearranges {l l' : List (List Stroke × Written)}
    (h : Rearranges Options.kind l l') (o : Options) :
    (Written.object (.ofList l)).IsRecord Options.kind o ↔
      (Written.object (.ofList l')).IsRecord Options.kind o := by
  rw [Json.isRecord_object_iff, Json.isRecord_object_iff]
  exact Json.membersGive_iff_of_rearranges h o

/-- An object says what another one says as the value of a member, if it gives the same record. -/
theorem isOptional_object_iff {α : Type} {means : Written → α → Prop}
    {members members' : Json.WrittenMembers}
    (h : ∀ a, means (.object members) a ↔ means (.object members') a) (x : Option α) :
    Written.IsOptional means (.object members) x ↔
      Written.IsOptional means (.object members') x := by
  constructor
  · intro hx
    cases hx with
    | given _ ha => exact .given (by simp) ((h _).mp ha)
  · intro hx
    cases hx with
    | given _ ha => exact .given (by simp) ((h _).mpr ha)

/-- A rearranged document says the same. -/
theorem isDocument_iff_of_rearranges {doc doc' : Written} (h : RearrangesDocument doc doc')
    (given : Option Options) : doc.IsDocument given ↔ doc'.IsDocument given := by
  unfold Written.IsDocument
  cases h with
  | members h =>
    rw [Json.isRecord_object_iff, Json.isRecord_object_iff]
    exact Json.membersGive_iff_of_rearranges h given
  | options hkey h =>
    rw [Json.isRecord_object_iff, Json.isRecord_object_iff]
    have hsection : Options.documentKind.fieldOf? "compilerOptions" = some () := rfl
    refine Json.membersGive_iff_of_value hkey hsection ?_ given
    exact isOptional_object_iff (isRecord_iff_of_rearranges h)

theorem isDocument_iff_of_eqvGen {doc doc' : Written}
    (h : Relation.EqvGen RearrangesDocument doc doc') (given : Option Options) :
    doc.IsDocument given ↔ doc'.IsDocument given := by
  induction h with
  | rel _ _ h => exact isDocument_iff_of_rearranges h given
  | refl _ => exact Iff.rfl
  | symm _ _ _ ih => exact ih.symm
  | trans _ _ _ _ _ ih ih' => exact ih.trans ih'

/-- The option that is refused, if it is an option and not the document itself. -/
def SettingsError.option? : SettingsError → Option SettingsError
  | .document _ => none
  | e => some e

namespace Settings

/-- A document that says nothing is refused itself. -/
theorem ofDocument_of_not_isDocument {document : String} {doc : Written}
    (hplain : doc.IsPlain (Jsonc.strip document.toList)) (hnone : ∀ given, ¬ doc.IsDocument given)
    (directory : Path) :
    ∃ report, ofDocument document directory = .error (.document report) := by
  simp only [ofDocument]
  cases hread : Options.ofPlainText (Jsonc.strip document.toList) with
  | error f => exact ⟨_, rfl⟩
  | ok given => exact absurd ((Options.ofPlainText_eq_ok_iff hplain).mp hread) (hnone given)

end Settings

/-- **Members may stand in any order.** Take a document and another one that comes from it when
members are put in another order, members that are not known are put in or left out, and known ones
that are absent are given as `null` or the other way round, among its own members or among those of
its options. The two give the same settings, or the same option is refused, or both are refused
themselves. -/
theorem ofDocument_rearranged {doc doc' : Written}
    (h : Relation.EqvGen RearrangesDocument doc doc') {text text' : String}
    (htext : doc.IsPlain text.toList) (htext' : doc'.IsPlain text'.toList) (directory : Path) :
    (Settings.ofDocument text directory).mapError SettingsError.option? =
      (Settings.ofDocument text' directory).mapError SettingsError.option? := by
  have hsame := isDocument_iff_of_eqvGen h
  have hplain := (Jsonc.isDecorated_of_isPlain htext).isPlain_strip
  have hplain' := (Jsonc.isDecorated_of_isPlain htext').isPlain_strip
  by_cases hgiven : ∃ given, doc.IsDocument given
  · obtain ⟨given, hgiven⟩ := hgiven
    rw [Settings.ofDocument_of_isDocument hplain hgiven,
      Settings.ofDocument_of_isDocument hplain' ((hsame given).mp hgiven)]
  · obtain ⟨report, hreport⟩ := Settings.ofDocument_of_not_isDocument hplain
      (fun given h => hgiven ⟨given, h⟩) directory
    obtain ⟨report', hreport'⟩ := Settings.ofDocument_of_not_isDocument hplain'
      (fun given h => hgiven ⟨given, (hsame given).mpr h⟩) directory
    rw [hreport, hreport']
    rfl

/-- A document whose options are the members of a list. -/
def withOptions (l : List (List Stroke × Written)) : Written :=
  .object (.ofList [(Json.strokesOf "compilerOptions", .object (.ofList l))])

/-- A document with two options. -/
def twoOptions : String := "\x7b\"compilerOptions\":\x7b\"target\":\"es6\",\"allowJs\":true\x7d\x7d"

/-- The same options in the other order, with a member that is not known and an option that is `null`
between them, and another member that is not known in front. -/
def turnedOptions : String :=
  "\x7b\"x\":[],\"compilerOptions\":\x7b\"allowJs\":true,\"y\":\x7b\x7d,\"baseUrl\":null," ++
    "\"target\":\"es6\"\x7d\x7d"

theorem turned_ofDocument_rearranged :
    ∃ doc doc' : Written, doc.IsPlain twoOptions.toList ∧ doc'.IsPlain turnedOptions.toList ∧
      Relation.EqvGen RearrangesDocument doc doc' ∧
      (Settings.ofDocument twoOptions (Path.ofString "/proj")).mapError SettingsError.option? =
        (Settings.ofDocument turnedOptions (Path.ofString "/proj")).mapError
          SettingsError.option? := by
  let target : List Stroke × Written := (Json.strokesOf "target", .quoted (Json.strokesOf "es6"))
  let allowJs : List Stroke × Written := (Json.strokesOf "allowJs", .word .yes)
  let foreign : List Stroke × Written := (Json.strokesOf "y", .object .nil)
  let baseUrl : List Stroke × Written := (Json.strokesOf "baseUrl", .word .null)
  let outer : List Stroke × Written := (Json.strokesOf "x", .array .nil)
  let options : List Stroke × Written :=
    (Json.strokesOf "compilerOptions", .object (.ofList [allowJs, foreign, baseUrl, target]))
  have hkey : ∀ name : String, Json.keptText (Json.strokesOf name) = .ok name.toList →
      StandsFor (Json.strokesOf name) name.toList := fun _ => Json.standsFor_of_keptText
  have hsection := hkey "compilerOptions" (by decide +kernel)
  have hreorder : RearrangesDocument (withOptions [target, allowJs]) (withOptions [allowJs, target]) :=
    @RearrangesDocument.options [] [] _ _ _ hsection (.reorder (.swap _ _ _))
  have hforeign : RearrangesDocument (withOptions [allowJs, target])
      (withOptions [allowJs, foreign, target]) :=
    @RearrangesDocument.options [] [] _ _ _ hsection
      (@Rearranges.foreign _ _ _ [allowJs] [target] _ "y" _ (hkey "y" (by decide +kernel))
        (by decide))
  have hnull : RearrangesDocument (withOptions [allowJs, foreign, target])
      (withOptions [allowJs, foreign, baseUrl, target]) := by
    refine @RearrangesDocument.options [] [] _ _ _ hsection
      (@Rearranges.null _ _ _ [allowJs, foreign] [target] _ "baseUrl" .baseUrl
        (hkey "baseUrl" (by decide +kernel)) (by decide) ?_)
    -- none of the other names is the option's
    have habsent : ∀ name : String, Json.keptText (Json.strokesOf name) = .ok name.toList →
        OptionField.ofKey? name ≠ some .baseUrl →
        ∀ other : String, StandsFor (Json.strokesOf name) other.toList →
          OptionField.ofKey? other ≠ some .baseUrl := by
      intro name hname hne other hother
      obtain rfl : name = other := String.toList_injective ((hkey name hname).unique hother)
      exact hne
    intro m hm
    simp only [List.cons_append, List.nil_append, List.mem_cons, List.not_mem_nil, or_false] at hm
    rcases hm with rfl | rfl | rfl
    · exact habsent "allowJs" (by decide +kernel) (by decide)
    · exact habsent "y" (by decide +kernel) (by decide)
    · exact habsent "target" (by decide +kernel) (by decide)
  have houter : RearrangesDocument (withOptions [allowJs, foreign, baseUrl, target])
      (.object (.ofList [outer, options])) :=
    .members (@Rearranges.foreign _ _ _ [] [options] _ "x" _ (hkey "x" (by decide +kernel))
      (by decide))
  have hsteps : Relation.EqvGen RearrangesDocument (withOptions [target, allowJs])
      (.object (.ofList [outer, options])) :=
    (Relation.EqvGen.rel _ _ hreorder).trans _ _ _ <| (Relation.EqvGen.rel _ _ hforeign).trans _ _ _ <|
      (Relation.EqvGen.rel _ _ hnull).trans _ _ _ (.rel _ _ houter)
  -- both texts are spelled without gaps
  have hplain : (withOptions [target, allowJs]).IsPlain twoOptions.toList :=
    Written.isPlain_flatMap _
  have hplain' : (Written.object (.ofList [outer, options])).IsPlain turnedOptions.toList :=
    Written.isPlain_flatMap _
  exact ⟨_, _, hplain, hplain', hsteps, ofDocument_rearranged hsteps hplain hplain' _⟩

end NameResolution
