import NameResolution.Proofs.Path.Collapse
import NameResolution.Proofs.Settings.Accepted
import NameResolution.Proofs.Settings.Meaning
import NameResolution.Proofs.Settings.Refusal

/-!
# Settings follow their document

What settings a document gives is told option by option (`Follows`): a value counts without the
blanks around it, a blank one counts as absent, a path is seen from the directory and in
normal form, and a pattern of the path mapping stands where it is given first and has the list
that it is given last. A document that says which options it gives is refused for these options, or
its settings follow them (`settings_follow_document`).
-/

namespace NameResolution

open Json (Written bind_eq_ok_iff)
open Text (TrimsTo isNonBlank)

namespace Settings

/-- The path that a value names: without the blanks around it, seen from the directory, and in
normal form. -/
structure Anchors (directory : Path) (value : String) (p : Path) : Prop where
  joined : ∃ word, TrimsTo value word ∧ p = (directory.join (Path.ofString word)).normalise
  fixed : p.normalise = p
  absolute : directory.isAbsolute = true → p.isAbsolute = true

/-- The settings are what the options mean in the directory. -/
structure Follows (directory : Path) (o : Options) (s : Settings) : Prop where
  target : o.target.elim (s.target = .es5) fun value => target? value = some s.target
  moduleResolution : Option.Rel (fun value k => ∃ word, TrimsTo value word ∧ strategy? word = some k)
    (o.moduleResolution.filter isNonBlank) s.moduleResolution
  baseUrl : Option.Rel (Anchors directory) (o.baseUrl.filter isNonBlank) s.baseUrl
  typeRoots : Option.Rel (fun values => List.Forall₂ (Anchors directory) (values.filter isNonBlank))
    o.typeRoots s.typeRoots
  types : Option.Rel (fun values => List.Forall₂ TrimsTo (values.filter isNonBlank)) o.types s.types
  distinct : s.paths.keys.Nodup
  patterns : s.paths.keys = patterns (o.paths.getD [])
  lists : ∀ pattern, s.paths.get? pattern = lastGiven (o.paths.getD []) pattern
  nonempty : ∀ pattern list, s.paths.get? pattern = some list → list ≠ []
  traceResolution : s.traceResolution = o.traceResolution.getD false
  allowJs : s.allowJs = o.allowJs.getD false
  maxNodeModuleJsDepth : s.maxNodeModuleJsDepth = o.maxNodeModuleJsDepth

/-! ## Single options -/

theorem anchors_anchored (directory : Path) {value word : String} (h : TrimsTo value word) :
    Anchors directory value (anchored directory word) where
  joined := ⟨word, h, rfl⟩
  fixed := Path.normalise_normalise _
  absolute := by
    intro habs
    rw [anchored, Path.anchor, Path.isAbsolute_normalise]
    exact Path.isAbsolute_join habs _

/-- A value is blank and left out, or kept without the blanks around it. -/
theorem nonBlank?_cases (value : String) :
    isNonBlank value = false ∧ nonBlank? value = none ∨
      isNonBlank value = true ∧ ∃ word, nonBlank? value = some word ∧ TrimsTo value word := by
  cases hvalue : nonBlank? value with
  | none =>
    refine .inl ⟨?_, rfl⟩
    rw [← Bool.not_eq_true]
    intro hnonBlank
    rw [nonBlank?_eq_some_iff.mpr ⟨hnonBlank, Text.trimsTo_iff.mpr rfl⟩] at hvalue
    cases hvalue
  | some word =>
    obtain ⟨hnonBlank, htrim⟩ := nonBlank?_eq_some_iff.mp hvalue
    exact .inr ⟨hnonBlank, word, rfl, htrim⟩

theorem rel_nonBlank? (given : Option String) :
    Option.Rel TrimsTo (given.filter isNonBlank) (given.bind nonBlank?) := by
  cases given with
  | none => exact .none
  | some value =>
    rw [Option.bind_some]
    rcases nonBlank?_cases value with ⟨hblank, hnone⟩ | ⟨hnonBlank, word, hword, htrim⟩
    · rw [Option.filter_some_neg (by simp [hblank]), hnone]
      exact .none
    · rw [Option.filter_some_pos hnonBlank, hword]
      exact .some htrim

theorem forall₂_nonBlank? (values : List String) :
    List.Forall₂ TrimsTo (values.filter isNonBlank) (values.filterMap nonBlank?) := by
  induction values with
  | nil => exact .nil
  | cons value values ih =>
    rcases nonBlank?_cases value with ⟨hblank, hnone⟩ | ⟨hnonBlank, word, hword, htrim⟩
    · rw [List.filter_cons_of_neg (by simp [hblank]), List.filterMap_cons_none hnone]
      exact ih
    · rw [List.filter_cons_of_pos hnonBlank, List.filterMap_cons_some hword]
      exact .cons htrim ih

theorem rel_map_right {α β γ : Type} {r : α → β → Prop} {q : α → γ → Prop} {g : β → γ}
    (h : ∀ a b, r a b → q a (g b)) {x : Option α} {y : Option β} (hxy : Option.Rel r x y) :
    Option.Rel q x (y.map g) := by
  cases hxy with
  | none => exact .none
  | some hr => exact .some (h _ _ hr)

/-- A list of values is kept item by item. -/
theorem rel_lists {α : Type} {q : String → α → Prop} {g : String → α}
    (given : Option (List String)) (h : ∀ value word, TrimsTo value word → q value (g word)) :
    Option.Rel (fun values => List.Forall₂ q (values.filter isNonBlank)) given
      (given.map fun values => (values.filterMap nonBlank?).map g) := by
  cases given with
  | none => exact .none
  | some values =>
    exact .some (List.forall₂_map_right_iff.mpr ((forall₂_nonBlank? values).imp h))

theorem readTarget_eq_ok {given : Option String} {t : ScriptTarget} (h : readTarget given = .ok t) :
    given.elim (t = .es5) fun value => target? value = some t := by
  cases given with
  | none => exact (Except.ok.inj h).symm
  | some value =>
    rw [readTarget] at h
    split at h
    next t' ht =>
      obtain rfl := Except.ok.inj h
      exact ht
    next => cases h

theorem readStrategy_eq_ok {given : Option String} {k : Option LookupStrategy}
    (h : readStrategy given = .ok k) :
    Option.Rel (fun value k => ∃ word, TrimsTo value word ∧ strategy? word = some k)
      (given.filter isNonBlank) k := by
  have hrel := rel_nonBlank? given
  unfold readStrategy at h
  generalize given.filter isNonBlank = kept at hrel ⊢
  generalize given.bind nonBlank? = words at hrel h
  cases hrel with
  | none =>
    obtain rfl := Except.ok.inj h
    exact .none
  | @some _ word htrim =>
    simp only at h
    split at h
    next k hk =>
      obtain rfl := Except.ok.inj h
      exact .some ⟨word, htrim, hk⟩
    next => cases h

theorem readPaths_eq_ok {given : Option (List (String × List String))}
    {paths : Table String (List String)} (h : readPaths given = .ok paths) :
    paths = Table.ofList (given.getD []) ∧ ∀ e ∈ paths.entries, e.2 ≠ [] := by
  simp only [readPaths] at h
  split at h
  next => cases h
  next hnone =>
    obtain rfl := Except.ok.inj h
    refine ⟨rfl, fun e he hempty => ?_⟩
    have hall := List.find?_eq_none.mp hnone e he
    simp [hempty] at hall

/-- Options that are not refused give the settings that they mean. -/
theorem follows_of_ofOptions {directory : Path} {o : Options} {s : Settings}
    (h : ofOptions directory o = .ok s) : Follows directory o s := by
  obtain ⟨target, htarget, h⟩ := bind_eq_ok_iff.mp h
  obtain ⟨strategy, hstrategy, h⟩ := bind_eq_ok_iff.mp h
  obtain ⟨paths, hpaths, h⟩ := bind_eq_ok_iff.mp h
  obtain rfl := Except.ok.inj h
  obtain ⟨rfl, hnonempty⟩ := readPaths_eq_ok hpaths
  have hbaseUrl : Option.Rel (Anchors directory) (o.baseUrl.filter isNonBlank)
      ((o.baseUrl.bind nonBlank?).map (anchored directory)) :=
    rel_map_right (fun _ _ h => anchors_anchored directory h) (rel_nonBlank? o.baseUrl)
  have htypes := rel_lists (g := id) o.types fun _ _ h => h
  simp only [List.map_id] at htypes
  exact {
    target := readTarget_eq_ok htarget
    moduleResolution := readStrategy_eq_ok hstrategy
    baseUrl := hbaseUrl
    typeRoots := rel_lists o.typeRoots fun _ _ h => anchors_anchored directory h
    types := htypes
    distinct := Table.distinct _
    patterns := Table.keys_ofList _
    lists := Table.get?_ofList _
    nonempty := fun pattern list hlist => hnonempty _ (Table.mem_of_look hlist)
    traceResolution := rfl
    allowJs := rfl
    maxNodeModuleJsDepth := rfl }

/-- A document that says which options it gives has the settings of these options. -/
theorem ofDocument_of_isDocument {document : String} {doc : Written} {given : Option Options}
    (hplain : doc.IsPlain (Jsonc.strip document.toList)) (hgiven : doc.IsDocument given)
    (directory : Path) :
    ofDocument document directory = ofOptions directory (given.getD {}) := by
  have hread := (Options.ofPlainText_eq_ok_iff hplain).mpr hgiven
  simp only [ofDocument, hread]
  cases given <;> rfl

/-- A document that can be read says which options it gives. -/
theorem exists_isDocument {text : List Char} {given : Option Options}
    (h : Options.ofPlainText text = .ok given) :
    ∃ doc : Written, doc.IsPlain text ∧ doc.IsDocument given := by
  obtain ⟨doc, hplain⟩ := Options.isPlain_of_ofPlainText h
  exact ⟨doc, hplain, (Options.ofPlainText_eq_ok_iff hplain).mp h⟩

end Settings

/-- **Settings follow their document.** A document that can be read at all is one that says, once it
is stripped, which options it gives. Its settings follow these options: paths are in normal form and
seen from the directory, values are trimmed and blank ones left out, and the path mapping has each
pattern once, where it is given first, with the list that it is given last. And it is refused for the
first of three reasons that holds of these options, and only then. -/
theorem settings_follow_document (document : String) (directory : Path) :
    ((∀ report, Settings.ofDocument document directory ≠ .error (.document report)) ↔
      ∃ (doc : Written) (given : Option Options),
        doc.IsPlain (Jsonc.strip document.toList) ∧ doc.IsDocument given) ∧
    ∀ (doc : Written) (given : Option Options),
      doc.IsPlain (Jsonc.strip document.toList) → doc.IsDocument given →
        (∀ s, Settings.ofDocument document directory = .ok s →
          Settings.Follows directory (given.getD {}) s) ∧
        ∀ e, Settings.ofDocument document directory = .error e ↔
          Settings.RefusedFor (given.getD {}) e := by
  refine ⟨⟨?_, ?_⟩, ?_⟩
  · intro h
    simp only [Settings.ofDocument] at h
    cases hread : Options.ofPlainText (Jsonc.strip document.toList) with
    | error f => exact absurd (by rw [hread]) (h (f.report (Jsonc.strip document.toList)))
    | ok given =>
      obtain ⟨doc, hdoc⟩ := Settings.exists_isDocument hread
      exact ⟨doc, given, hdoc⟩
  · rintro ⟨doc, given, hplain, hgiven⟩ report h
    rw [Settings.ofDocument_of_isDocument hplain hgiven] at h
    -- options that could be read are refused without a report
    cases Settings.ofOptions_error_iff.mp h
  · intro doc given hplain hgiven
    rw [Settings.ofDocument_of_isDocument hplain hgiven]
    constructor
    · intro s h
      exact Settings.follows_of_ofOptions h
    · intro e
      exact Settings.ofOptions_error_iff

/-- A document with blanks around its values, and a pattern that is given an empty list first. -/
def mappedDocument : String :=
  "\x7b\"compilerOptions\": \x7b\"paths\": \x7b\"a\": [], \"b\": [\"x\"], \"a\": [\"y\"]\x7d,\n" ++
    "\"typeRoots\": [\" ../t \", \" \"], \"baseUrl\": \" \"\x7d\x7d"

/-- A document that is refused for two reasons, the second of them first in the text. -/
def oddDocument : String :=
  "\x7b\"compilerOptions\": \x7b\"paths\": \x7b\"a\": []\x7d, \"moduleResolution\": \" odd \"\x7d\x7d"

/-- The list that is given last counts, at the place where the pattern is given first; and the
module resolution is looked at before the path mapping. -/
theorem mapped_settings_follow_document :
    (∃ (doc : Written) (given : Option Options) (s : Settings),
      doc.IsPlain (Jsonc.strip mappedDocument.toList) ∧ doc.IsDocument given ∧
      Settings.ofDocument mappedDocument (Path.ofString "/proj") = .ok s ∧
      Settings.Follows (Path.ofString "/proj") (given.getD {}) s ∧
      (s.paths.entries, s.typeRoots, s.baseUrl) =
        ([("a", ["y"]), ("b", ["x"])], some [Path.ofString "/t"], none)) ∧
    ∃ (doc : Written) (o : Options), doc.IsPlain (Jsonc.strip oddDocument.toList) ∧
      doc.IsDocument (some o) ∧
      Settings.ofDocument oddDocument (Path.ofString "/proj") =
        .error (.unsupportedModuleResolution "odd") ∧
      Settings.RefusedFor o (.unsupportedModuleResolution "odd") := by
  constructor
  · obtain ⟨s, haccepted, hvalues⟩ : ∃ s : Settings,
        Settings.ofDocument mappedDocument (Path.ofString "/proj") = .ok s ∧
          (s.paths.entries, s.typeRoots, s.baseUrl) =
            ([("a", ["y"]), ("b", ["x"])], some [Path.ofString "/t"], none) :=
      ofDocument_of_field (by decide +kernel)
    obtain ⟨hreadable, hfollows⟩ := settings_follow_document mappedDocument (Path.ofString "/proj")
    have haccepts : ∀ report, Settings.ofDocument mappedDocument (Path.ofString "/proj") ≠
        .error (.document report) := by
      intro report h
      rw [haccepted] at h
      cases h
    obtain ⟨doc, given, hplain, hgiven⟩ := hreadable.mp haccepts
    obtain ⟨hsettings, -⟩ := hfollows doc given hplain hgiven
    exact ⟨doc, given, s, hplain, hgiven, haccepted, hsettings s haccepted, hvalues⟩
  · let o : Options := { paths := some [("a", [])], moduleResolution := some " odd " }
    have hread : Options.ofPlainText (Jsonc.strip oddDocument.toList) = .ok (some o) := by
      decide +kernel
    obtain ⟨doc, hplain, hgiven⟩ := Settings.exists_isDocument hread
    have hrefused := ((settings_follow_document oddDocument (Path.ofString "/proj")).2 doc (some o)
      hplain hgiven).2 (.unsupportedModuleResolution "odd")
    have hreason : Settings.RefusedFor o (.unsupportedModuleResolution "odd") := by
      refine .moduleResolution ?_ rfl (by decide) (Text.trimsTo_iff.mpr (by decide)) (by decide)
      intro value hvalue
      cases hvalue
    exact ⟨doc, o, hplain, hgiven, hrefused.mpr hreason, hreason⟩

end NameResolution
