import NameResolution.Proofs.Json.Located.Reading
import NameResolution.Proofs.Jsonc.Lines
import NameResolution.Proofs.Settings.Fields
import NameResolution.Proofs.Settings.Refusal

/-!
# Lines of a document that cannot be read

A document is read behind its comments, and yet a fault is reported with a line of the document
that the user wrote. This is right because a fault of the stripped text is at one of its
characters (`Options.isIn_ofPlainText`), and stripping leaves that character in its line.
-/

namespace NameResolution

open Json (Admits Fault Reports Token Tree of_bind_error)

namespace Options

variable {P : Fault → Prop}

/-! ## Readers of options report faults of the tree -/

/-- Reading a switch reports what the tree meets. -/
theorem reports_readFlag (hP : Admits P) : Reports P readFlag := by
  intro t f ht h
  have hmistyped : (.error .mistyped : Except Fault Bool) = .error f → P f := by
    intro hf
    obtain rfl := Except.error.inj hf
    exact hP.mistyped
  unfold readFlag at h
  rcases of_bind_error h with h | ⟨_, -, h⟩
  · exact Tree.meets_of_readAny _ ht h
  split at h
  next => cases h
  next => cases h
  next =>
    -- a text that is no switch has no place
    unfold flagOfText at h
    split at h
    next => cases h
    next => cases h
    next =>
      obtain rfl := Except.error.inj h
      exact hP.badFlag _
  next => exact hmistyped h

/-- Reading what an option holds reports what the tree meets. -/
theorem reports_readContent (hP : Admits P) (field : OptionField) :
    Reports P field.readContent := by
  have hstring : Reports P Tree.readString := Tree.reports_readString hP
  have hstrings : Reports P (Tree.readList Tree.readString) := Tree.reports_readList hP hstring
  cases field with
  | target | moduleResolution | baseUrl => exact hstring
  | paths => exact Tree.reports_readMap hP hstrings
  | typeRoots | types => exact hstrings
  | traceResolution | allowJs => exact reports_readFlag hP
  | maxNodeModuleJsDepth => exact Tree.reports_readCount hP

theorem reports_readField (hP : Admits P) (field : OptionField) (o : Options) :
    Reports P (readField field · o) := by
  intro t f ht h
  simp only [readField_eq] at h
  exact Tree.reports_readOptional (reports_readContent hP field) ht (Json.of_map_error h)

theorem reports_readOptions (hP : Admits P) : Reports P readOptions :=
  Tree.reports_readRecord hP (reports_readField hP) {}

/-- Reading a document reports what the tree meets. -/
theorem reports_readDocument (hP : Admits P) : Reports P readDocument :=
  Tree.reports_readRecord hP
    (fun _ _ => Tree.reports_readOptional (reports_readOptions hP)) none

theorem meets_of_readFinish {ts : List Token} {f : Fault} (hts : Json.AllMeet P ts)
    (h : readFinish ts = .error f) : P f := by
  unfold readFinish at h
  split at h
  next => cases h
  next => cases h
  next t ts _ =>
    obtain rfl := Except.error.inj h
    exact (hts t List.mem_cons_self).2

/-- A text that cannot be read is at fault at one of its characters, or at its end. -/
theorem isIn_ofPlainText {text : List Char} {f : Fault} (h : ofPlainText text = .error f) :
    f.IsIn text := by
  by_cases hne : text = []
  · subst hne
    obtain rfl : Fault.unfinished = f := Except.error.inj h
    trivial
  have hP := Json.admits_isIn hne
  obtain ⟨htree, hrest⟩ := Json.treeOf_meets hP (Json.meets_of_mem_tokens hne)
  unfold ofPlainText at h
  generalize Json.treeOf (Json.tokens text) = outcome at h htree hrest
  rcases of_bind_error h with h | ⟨_, -, h⟩
  · exact reports_readDocument hP htree h
  rcases of_bind_error h with h | ⟨_, -, h⟩
  · exact meets_of_readFinish hrest h
  · cases h

end Options

/-! ## Reported lines -/

/-- What is left behind a character is given by the number of characters in front. -/
theorem exists_drop_of_suffix {text behind : List Char} {c : Char} (h : c :: behind <:+ text) :
    ∃ i < text.length, behind = text.drop (i + 1) := by
  obtain ⟨before, rfl⟩ := h
  refine ⟨before.length, ?_, ?_⟩
  · rw [List.length_append, List.length_cons]
    omega
  · rw [← List.drop_drop, List.drop_left]
    rfl

namespace Settings

/-- A document is refused with a report when its stripped text cannot be read, for the fault that
is reported. -/
theorem ofPlainText_of_report {document : String} {directory : Path} {report : Json.Report}
    (h : ofDocument document directory = .error (.document report)) :
    ∃ f, Options.ofPlainText (Jsonc.strip document.toList) = .error f ∧
      f.report (Jsonc.strip document.toList) = report := by
  simp only [ofDocument] at h
  split at h
  next f hread =>
    obtain rfl : f.report (Jsonc.strip document.toList) = report :=
      SettingsError.document.inj (Except.error.inj h)
    exact ⟨f, hread, rfl⟩
  next => cases h
  next o _ =>
    -- options that could be read are refused without a report
    cases ofOptions_error_iff.mp h

end Settings

/-- **Stripping keeps lines.** What is left of a document are characters of it in their order, every
newline among them, and each has as many newlines in front of it as in the document. So when the
stripped text is malformed, it is so at a character, and the line that is reported is counted up to
this character in the document; and when it ends too early, the line is that of the document's
end. -/
theorem strip_keeps_lines (document : String) :
    ∃ place, Jsonc.Places document.toList (Jsonc.strip document.toList) place ∧
      ∀ (directory : Path) (line : ℕ),
        (Settings.ofDocument document directory = .error (.document (.malformed line)) →
          ∃ i < (Jsonc.strip document.toList).length,
            Options.ofPlainText (Jsonc.strip document.toList) =
              .error (.malformed ((Jsonc.strip document.toList).drop (i + 1))) ∧
            line = 1 + ((Jsonc.strip document.toList).take (i + 1)).count '\n' ∧
            line = 1 + (document.toList.take (place i + 1)).count '\n') ∧
        (Settings.ofDocument document directory = .error (.document (.unfinished line)) →
          Options.ofPlainText (Jsonc.strip document.toList) = .error .unfinished ∧
            line = 1 + (Jsonc.strip document.toList).count '\n' ∧
            line = 1 + document.toList.count '\n') := by
  have hkeeps := Jsonc.keepsLines_stripFrom .plain document.toList
  obtain ⟨place, hplace⟩ := hkeeps.exists_places
  refine ⟨place, hplace, fun directory line => ⟨fun h => ?_, fun h => ?_⟩⟩
  · obtain ⟨f, hread, hreport⟩ := Settings.ofPlainText_of_report h
    cases f with
    | malformed behind =>
      obtain ⟨c, hbehind⟩ := Options.isIn_ofPlainText hread
      obtain ⟨i, hi, rfl⟩ := exists_drop_of_suffix hbehind
      obtain rfl := Json.Report.malformed.inj hreport
      refine ⟨i, hi, hread, Jsonc.lineOf_drop _ _, ?_⟩
      exact (hplace.lineOf_eq hi).trans (Jsonc.lineOf_drop _ _)
    | _ => cases hreport
  · obtain ⟨f, hread, hreport⟩ := Settings.ofPlainText_of_report h
    cases f with
    | unfinished =>
      obtain rfl := Json.Report.unfinished.inj hreport
      have hline : ∀ text : List Char, Json.lineOf text [] = 1 + text.count '\n' := fun _ => rfl
      exact ⟨hread, hline _, hkeeps.lineOf_nil⟩
    | _ => cases hreport

/-- A document with a comment over two lines and a text without an end. -/
def faultyDocument : String := "\x7b/*\n,\n*/\n\"compilerOptions\": [\"es5\" ! \"\n"

/-- The character that is at fault stands in the fourth line, of the document and of what is left
of it. -/
theorem faulty_strip_keeps_lines :
    ∃ place i, Jsonc.Places faultyDocument.toList (Jsonc.strip faultyDocument.toList) place ∧
      Settings.ofDocument faultyDocument (Path.ofString "/proj") =
        .error (.document (.malformed 4)) ∧
      4 = 1 + ((Jsonc.strip faultyDocument.toList).take (i + 1)).count '\n' ∧
      4 = 1 + (faultyDocument.toList.take (place i + 1)).count '\n' := by
  have hrefused : Settings.ofDocument faultyDocument (Path.ofString "/proj") =
      .error (.document (.malformed 4)) :=
    Json.of_map_error (g := fun _ => ()) (by decide +kernel)
  obtain ⟨place, hplace, hlines⟩ := strip_keeps_lines faultyDocument
  obtain ⟨i, -, -, hstripped, hdocument⟩ := (hlines (Path.ofString "/proj") 4).1 hrefused
  exact ⟨place, i, hplace, hrefused, hstripped, hdocument⟩

end NameResolution
