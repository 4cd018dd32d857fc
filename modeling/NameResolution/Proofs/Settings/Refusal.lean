import Mathlib.Data.List.Induction
import NameResolution.Proofs.Text.Trim
import NameResolution.Settings.Document

/-!
# What options are refused for

Options that could be read are refused for three reasons: an unknown target, an unknown module
resolution, and a pattern of the path mapping without substitutions. The order of the reasons is
fixed, and so is the order of patterns (`RefusedFor`): by their first occurrence, whichever list a
pattern is given last counts. Options are refused for what they are, and for nothing else
(`ofOptions_error_iff`).
-/

namespace NameResolution

/-! ## The table of a list of pairs -/

namespace Table

variable {α : Type}

theorem ofList_concat (l : List (String × α)) (e : String × α) :
    ofList (l ++ [e]) = (ofList l).insert e.1 e.2 := by
  rw [ofList, List.foldl_append]
  rfl

/-- The keys stand in the order of their first occurrences. -/
theorem keys_ofList (l : List (String × α)) : (ofList l).keys = (l.map Prod.fst).eraseDups := by
  induction l using List.reverseRecOn with
  | nil => rfl
  | append_singleton l e ih =>
    have hmem : ((ofList l).get? e.1).isSome = true ↔ e.1 ∈ l.map Prod.fst := by
      rw [get?, look_isSome_iff, ← keys, ih, List.mem_eraseDups]
    rw [ofList_concat, keys_insert, ih, List.map_append, List.map_singleton,
      List.eraseDups_append]
    by_cases he : e.1 ∈ l.map Prod.fst
    · have hnone : [e.1].removeAll (l.map Prod.fst) = [] := by simpa [List.removeAll] using he
      rw [if_pos (hmem.mpr he), hnone, List.eraseDups_nil, List.append_nil]
    · have hnew : [e.1].removeAll (l.map Prod.fst) = [e.1] := by simpa [List.removeAll] using he
      rw [if_neg (mt hmem.mp he), hnew]
      rfl

/-- A key has the value it is given last. -/
theorem get?_ofList (l : List (String × α)) (k : String) :
    (ofList l).get? k = look k l.reverse := by
  induction l using List.reverseRecOn with
  | nil => rfl
  | append_singleton l e ih =>
    rw [ofList_concat, get?_insert, ih, List.reverse_append,
      List.reverse_singleton, List.singleton_append, look]

/-- The first entry whose value passes a test, by the keys and their values. -/
theorem find?_entries_eq_some_iff {t : Table String α} {test : α → Bool} {k : String} {v : α} :
    t.entries.find? (fun e => test e.2) = some (k, v) ↔
      t.get? k = some v ∧ test v = true ∧ ∃ before behind, t.keys = before ++ k :: behind ∧
        ∀ k' ∈ before, ∀ v' ∈ t.get? k', test v' = false := by
  have hget : ∀ e ∈ t.entries, t.get? e.1 = some e.2 := fun e he => look_of_mem t.distinct he
  rw [List.find?_eq_some_iff_append]
  constructor
  · rintro ⟨htest, before, behind, hentries, hbefore⟩
    have hmem : (k, v) ∈ t.entries := by
      rw [hentries]
      exact List.mem_append_right _ List.mem_cons_self
    refine ⟨hget _ hmem, htest, before.map Prod.fst, behind.map Prod.fst, ?_, ?_⟩
    · rw [keys, hentries, List.map_append, List.map_cons]
    · intro k' hk' v' hv'
      obtain ⟨e, he, rfl⟩ := List.mem_map.mp hk'
      have hmem' : e ∈ t.entries := by
        rw [hentries]
        exact List.mem_append_left _ he
      rw [hget e hmem'] at hv'
      obtain rfl := Option.some.inj hv'
      simpa using hbefore e he
  · rintro ⟨hk, htest, before, behind, hkeys, hbefore⟩
    obtain ⟨l, rest, hentries, rfl, hrest⟩ := List.map_eq_append_iff.mp hkeys
    obtain ⟨e, behind', rfl, rfl, rfl⟩ := List.map_eq_cons_iff.mp hrest
    have hmem : e ∈ t.entries := by
      rw [hentries]
      exact List.mem_append_right _ List.mem_cons_self
    -- the entry of the key has the value of the key
    obtain rfl : e.2 = v := Option.some.inj ((hget e hmem).symm.trans hk)
    refine ⟨htest, l, behind', hentries, ?_⟩
    intro e' he'
    have hmem' : e' ∈ t.entries := by
      rw [hentries]
      exact List.mem_append_left _ he'
    rw [hbefore e'.1 (List.mem_map_of_mem he') e'.2 (hget e' hmem')]
    rfl

end Table

namespace Settings

/-- The patterns of a path mapping, in the order of their first occurrences. -/
def patterns (given : List (String × List String)) : List String := (given.map Prod.fst).eraseDups

/-- The list that a pattern is given last. -/
def lastGiven (given : List (String × List String)) (pattern : String) : Option (List String) :=
  Table.look pattern given.reverse

/-- Every target that is given is a known one. -/
def HasKnownTarget (o : Options) : Prop := ∀ value ∈ o.target, target? value ≠ none

/-- A module resolution that is given and not blank is a known one. -/
def HasKnownStrategy (o : Options) : Prop :=
  ∀ value ∈ o.moduleResolution, Text.isNonBlank value = true →
    ∀ word, Text.TrimsTo value word → strategy? word ≠ none

/-- What options are refused for: the first of three reasons. -/
inductive RefusedFor (o : Options) : SettingsError → Prop where
  | target {value : String} (given : o.target = some value) (unknown : target? value = none) :
    RefusedFor o (.unsupportedTarget value)
  | moduleResolution {value word : String} (target : HasKnownTarget o)
      (given : o.moduleResolution = some value) (nonBlank : Text.isNonBlank value = true)
      (trimmed : Text.TrimsTo value word) (unknown : strategy? word = none) :
    RefusedFor o (.unsupportedModuleResolution word)
  | noSubstitutions {pattern : String} {before behind : List String} (target : HasKnownTarget o)
      (strategy : HasKnownStrategy o)
      (order : patterns (o.paths.getD []) = before ++ pattern :: behind)
      (empty : lastGiven (o.paths.getD []) pattern = some [])
      (first : ∀ p ∈ before, lastGiven (o.paths.getD []) p ≠ some []) :
    RefusedFor o (.noSubstitutions pattern)

/-! ## Single options -/

/-- A value that is not blank counts without the blanks around it. -/
theorem nonBlank?_eq_some_iff {value word : String} :
    nonBlank? value = some word ↔ Text.isNonBlank value = true ∧ Text.TrimsTo value word := by
  have hblank := Text.trim_eq_empty_iff value
  rw [nonBlank?, Text.trimsTo_iff]
  cases hvalue : Text.isNonBlank value with
  | false => simp [hblank.mpr hvalue]
  | true =>
    have hne : Text.trim value ≠ "" := fun hempty => by simp [hblank.mp hempty] at hvalue
    simp [hne, eq_comm]

theorem readTarget_error_iff {given : Option String} {e : SettingsError} :
    readTarget given = .error e ↔
      ∃ value, given = some value ∧ target? value = none ∧ e = .unsupportedTarget value := by
  cases given with
  | none => simp [readTarget]
  | some value => cases htarget : target? value <;> simp [readTarget, htarget, eq_comm]

theorem readStrategy_error_iff {given : Option String} {e : SettingsError} :
    readStrategy given = .error e ↔
      ∃ value word, given = some value ∧ Text.isNonBlank value = true ∧
        Text.TrimsTo value word ∧ strategy? word = none ∧
        e = .unsupportedModuleResolution word := by
  have hword : readStrategy given = .error e ↔
      ∃ word, given.bind nonBlank? = some word ∧ strategy? word = none ∧
        e = .unsupportedModuleResolution word := by
    cases hgiven : given.bind nonBlank? with
    | none => simp [readStrategy, hgiven]
    | some word => cases hword : strategy? word <;> simp [readStrategy, hgiven, hword, eq_comm]
  rw [hword]
  constructor
  · rintro ⟨word, hgiven, hnone, he⟩
    obtain ⟨value, hvalue, hvalue'⟩ := Option.bind_eq_some_iff.mp hgiven
    obtain ⟨hnonBlank, htrim⟩ := nonBlank?_eq_some_iff.mp hvalue'
    exact ⟨value, word, hvalue, hnonBlank, htrim, hnone, he⟩
  · rintro ⟨value, word, rfl, hnonBlank, htrim, hnone, he⟩
    exact ⟨word, nonBlank?_eq_some_iff.mpr ⟨hnonBlank, htrim⟩, hnone, he⟩

theorem readPaths_error_iff {given : Option (List (String × List String))} {e : SettingsError} :
    readPaths given = .error e ↔
      ∃ pattern before behind, patterns (given.getD []) = before ++ pattern :: behind ∧
        lastGiven (given.getD []) pattern = some [] ∧
        (∀ p ∈ before, lastGiven (given.getD []) p ≠ some []) ∧
        e = .noSubstitutions pattern := by
  generalize hl : given.getD [] = l
  have hfirst : readPaths given = .error e ↔ ∃ entry : String × List String,
      (Table.ofList l).entries.find? (fun e => e.2.isEmpty) = some entry ∧
        e = .noSubstitutions entry.1 := by
    simp only [readPaths, hl]
    cases (Table.ofList l).entries.find? (fun e => e.2.isEmpty) with
    | none => simp
    | some entry => simp [eq_comm]
  rw [hfirst]
  constructor
  · rintro ⟨⟨pattern, list⟩, hfind, he⟩
    obtain ⟨hget, hempty, before, behind, hkeys, hbefore⟩ :=
      Table.find?_entries_eq_some_iff.mp hfind
    rw [Table.keys_ofList] at hkeys
    rw [Table.get?_ofList, List.isEmpty_iff.mp hempty] at hget
    refine ⟨pattern, before, behind, hkeys, hget, ?_, he⟩
    intro p hp hp'
    have hnot := hbefore p hp [] (by rw [Table.get?_ofList]; exact hp')
    cases hnot
  · rintro ⟨pattern, before, behind, hkeys, hget, hbefore, he⟩
    refine ⟨(pattern, []), Table.find?_entries_eq_some_iff.mpr ⟨?_, rfl, before, behind, ?_, ?_⟩, he⟩
    · rw [Table.get?_ofList]
      exact hget
    · rw [Table.keys_ofList]
      exact hkeys
    · intro p hp list hlist
      rw [Table.get?_ofList] at hlist
      cases list with
      | nil => exact absurd hlist (hbefore p hp)
      | cons _ _ => rfl

/-! ## All options -/

theorem hasKnownTarget_iff {o : Options} :
    HasKnownTarget o ↔ ∀ e, readTarget o.target ≠ .error e := by
  constructor
  · intro hknown e he
    obtain ⟨value, hvalue, hnone, -⟩ := readTarget_error_iff.mp he
    exact hknown value hvalue hnone
  · intro hread value hvalue hnone
    exact hread _ (readTarget_error_iff.mpr ⟨value, hvalue, hnone, rfl⟩)

theorem hasKnownStrategy_iff {o : Options} :
    HasKnownStrategy o ↔ ∀ e, readStrategy o.moduleResolution ≠ .error e := by
  constructor
  · intro hknown e he
    obtain ⟨value, word, hvalue, hnonBlank, htrim, hnone, -⟩ := readStrategy_error_iff.mp he
    exact hknown value hvalue hnonBlank word htrim hnone
  · intro hread value hvalue hnonBlank word htrim hnone
    exact hread _ (readStrategy_error_iff.mpr ⟨value, word, hvalue, hnonBlank, htrim, hnone, rfl⟩)

/-- The options are looked at one after the other. -/
theorem ofOptions_error_cases {directory : Path} {o : Options} {e : SettingsError} :
    ofOptions directory o = .error e ↔
      readTarget o.target = .error e ∨
      (∀ e', readTarget o.target ≠ .error e') ∧ readStrategy o.moduleResolution = .error e ∨
      (∀ e', readTarget o.target ≠ .error e') ∧
        (∀ e', readStrategy o.moduleResolution ≠ .error e') ∧ readPaths o.paths = .error e := by
  unfold ofOptions
  cases readTarget o.target with
  | error e' => simp [bind, Except.bind]
  | ok target =>
    cases readStrategy o.moduleResolution with
    | error e' => simp [bind, Except.bind]
    | ok strategy => cases readPaths o.paths <;> simp [bind, Except.bind, pure, Except.pure]

/-- Options are refused for the first of the three reasons, and for nothing else. -/
theorem ofOptions_error_iff {directory : Path} {o : Options} {e : SettingsError} :
    ofOptions directory o = .error e ↔ RefusedFor o e := by
  rw [ofOptions_error_cases, ← hasKnownTarget_iff, ← hasKnownStrategy_iff]
  constructor
  · rintro (h | ⟨htarget, h⟩ | ⟨htarget, hstrategy, h⟩)
    · obtain ⟨value, hvalue, hnone, rfl⟩ := readTarget_error_iff.mp h
      exact .target hvalue hnone
    · obtain ⟨value, word, hvalue, hnonBlank, htrim, hnone, rfl⟩ := readStrategy_error_iff.mp h
      exact .moduleResolution htarget hvalue hnonBlank htrim hnone
    · obtain ⟨pattern, before, behind, horder, hempty, hfirst, rfl⟩ := readPaths_error_iff.mp h
      exact .noSubstitutions htarget hstrategy horder hempty hfirst
  · intro h
    cases h with
    | target given unknown => exact .inl (readTarget_error_iff.mpr ⟨_, given, unknown, rfl⟩)
    | moduleResolution target given nonBlank trimmed unknown =>
      exact .inr (.inl ⟨target,
        readStrategy_error_iff.mpr ⟨_, _, given, nonBlank, trimmed, unknown, rfl⟩⟩)
    | noSubstitutions target strategy order empty first =>
      exact .inr (.inr ⟨target, strategy,
        readPaths_error_iff.mpr ⟨_, _, _, order, empty, first, rfl⟩⟩)

end Settings

end NameResolution
