import Mathlib.Data.List.TakeWhile
import NameResolution.Text.Blank

/-!
# Trimmed texts

A text is trimmed to the part of it that has only blanks around it and neither begins nor ends
with one (`TrimsTo`). There is one such part, and it is what trimming leaves (`trimsTo_iff`).
Nothing is left of a text in which every character is blank, and of no other
(`trim_eq_empty_iff`).
-/

namespace NameResolution.Text

/-- Is there a character that is not blank? -/
def isNonBlank (s : String) : Bool := s.toList.any fun c => !isBlank c

/-- The second text is the first without the blanks around it. -/
structure TrimsTo (s t : String) : Prop where
  around : ∃ front back : List Char, s.toList = front ++ (t.toList ++ back) ∧
    (∀ c ∈ front, isBlank c = true) ∧ ∀ c ∈ back, isBlank c = true
  first : ∀ c ∈ t.toList.head?, isBlank c = false
  last : ∀ c ∈ t.toList.getLast?, isBlank c = false

/-- Blanks are dropped up to the first other character, or all of them. -/
theorem dropWhile_blanks {blanks text : List Char} (hblanks : ∀ c ∈ blanks, isBlank c = true)
    (hfirst : ∀ c ∈ text.head?, isBlank c = false) : (blanks ++ text).dropWhile isBlank = text := by
  rw [List.dropWhile_append_of_pos hblanks]
  cases text with
  | nil => rfl
  | cons c text => rw [List.dropWhile_cons, hfirst c rfl, if_neg Bool.false_ne_true]

theorem exists_blanks_append (text : List Char) :
    ∃ blanks rest : List Char, text = blanks ++ rest ∧ (∀ c ∈ blanks, isBlank c = true) ∧
      ∀ c ∈ rest.head?, isBlank c = false := by
  induction text with
  | nil => exact ⟨[], [], rfl, by simp, by simp⟩
  | cons c text ih =>
    cases hc : isBlank c with
    | false => exact ⟨[], c :: text, rfl, by simp, by simpa using hc⟩
    | true =>
      obtain ⟨blanks, rest, rfl, hblanks, hfirst⟩ := ih
      exact ⟨c :: blanks, rest, rfl, List.forall_mem_cons.mpr ⟨hc, hblanks⟩, hfirst⟩

/-- Every text is a part that neither begins nor ends with a blank, with blanks around it. -/
theorem exists_trimmed (text : List Char) :
    ∃ front part back : List Char, text = front ++ (part ++ back) ∧
      (∀ c ∈ front, isBlank c = true) ∧ (∀ c ∈ back, isBlank c = true) ∧
      (∀ c ∈ part.head?, isBlank c = false) ∧ ∀ c ∈ part.getLast?, isBlank c = false := by
  obtain ⟨front, rest, rfl, hfront, hfirst⟩ := exists_blanks_append text
  obtain ⟨back, part, hpart, hback, hlast⟩ := exists_blanks_append rest.reverse
  obtain rfl : rest = part.reverse ++ back.reverse := by
    rw [← List.reverse_append, ← hpart, List.reverse_reverse]
  refine ⟨front, part.reverse, back.reverse, rfl, hfront, ?_, ?_, ?_⟩
  · exact fun c hc => hback c (List.mem_reverse.mp hc)
  · intro c hc
    exact hfirst c (by rw [List.head?_append, Option.mem_def.mp hc]; rfl)
  · rwa [List.getLast?_reverse]

theorem trimChars_append {front part back : List Char} (hfront : ∀ c ∈ front, isBlank c = true)
    (hback : ∀ c ∈ back, isBlank c = true) (hfirst : ∀ c ∈ part.head?, isBlank c = false)
    (hlast : ∀ c ∈ part.getLast?, isBlank c = false) :
    trimChars (front ++ (part ++ back)) = part := by
  unfold trimChars
  cases part with
  | nil =>
    -- nothing but blanks, which are dropped in front
    have hall : ∀ c ∈ front ++ ([] ++ back), isBlank c = true := by
      intro c hc
      rcases List.mem_append.mp hc with hc | hc
      · exact hfront c hc
      · exact hback c hc
    rw [List.dropWhile_eq_nil_iff.mpr hall]
    rfl
  | cons c part =>
    have hback' : ∀ d ∈ back.reverse, isBlank d = true := fun d hd =>
      hback d (List.mem_reverse.mp hd)
    have hlast' : ∀ d ∈ (c :: part).reverse.head?, isBlank d = false := by
      rwa [List.head?_reverse]
    have hfirst' : ∀ d ∈ (c :: part ++ back).head?, isBlank d = false := hfirst
    rw [dropWhile_blanks hfront hfirst', List.reverse_append, dropWhile_blanks hback' hlast',
      List.reverse_reverse]

theorem TrimsTo.trim_eq {s t : String} (h : TrimsTo s t) : trim s = t := by
  obtain ⟨front, back, hs, hfront, hback⟩ := h.around
  rw [trim, hs, trimChars_append hfront hback h.first h.last, String.ofList_toList]

/-- The part to which a text is trimmed is what trimming leaves. -/
theorem trimsTo_iff {s t : String} : TrimsTo s t ↔ t = trim s := by
  constructor
  · exact fun h => h.trim_eq.symm
  · rintro rfl
    obtain ⟨front, part, back, hs, hfront, hback, hfirst, hlast⟩ := exists_trimmed s.toList
    have hpart : TrimsTo s (String.ofList part) := by
      refine ⟨⟨front, back, ?_, hfront, hback⟩, ?_, ?_⟩
      · rw [String.toList_ofList, hs]
      · rwa [String.toList_ofList]
      · rwa [String.toList_ofList]
    rwa [hpart.trim_eq]

/-- Nothing is left of a text exactly when every character of it is blank. -/
theorem trim_eq_empty_iff (s : String) : trim s = "" ↔ isNonBlank s = false := by
  have htrim : TrimsTo s (trim s) := trimsTo_iff.mpr rfl
  obtain ⟨front, back, hs, hfront, hback⟩ := htrim.around
  constructor
  · intro hempty
    rw [hempty] at hs
    rw [isNonBlank, List.any_eq_false, hs]
    intro c hc
    rcases List.mem_append.mp hc with hc | hc
    · simp [hfront c hc]
    · simp [hback c hc]
  · intro hblank
    by_contra hne
    -- a character of what is left is not blank
    obtain ⟨c, hc⟩ : ∃ c, c ∈ (trim s).toList.head? := by
      cases hlist : (trim s).toList with
      | nil => exact absurd (String.toList_eq_nil_iff.mp hlist) hne
      | cons c rest => exact ⟨c, rfl⟩
    have hmem : c ∈ s.toList := by
      rw [hs]
      exact List.mem_append_right _ (List.mem_append_left _ (List.mem_of_mem_head? hc))
    have hall := List.any_eq_false.mp hblank c hmem
    simp [htrim.first c hc] at hall

end NameResolution.Text
