import Mathlib.Order.Monotone.Basic
import NameResolution.Json.Fault
import NameResolution.Proofs.Jsonc.Glyphs

/-!
# Stripping keeps lines

Stripping leaves characters out and moves none, and a newline is never left out
(`keepsLines_stripFrom`), wherever it stands: at the end of a line comment, in a block comment or
in quotes, closed or not. So every character that is left has a place in the document, with
as many newlines before it as it has in the stripped text (`KeepsLines.exists_places`), and
the line of a character can be counted in either of them (`Places.lineOf_eq`).
-/

namespace NameResolution.Jsonc

open Json (lineOf)

/-- The second text is what is left of the first when some characters, and no newline, are left
out. -/
inductive KeepsLines : List Char → List Char → Prop where
  | nil : KeepsLines [] []
  | keep (c : Char) {source result : List Char} (more : KeepsLines source result) :
    KeepsLines (c :: source) (c :: result)
  | drop {c : Char} (h : c ≠ '\n') {source result : List Char} (more : KeepsLines source result) :
    KeepsLines (c :: source) result

/-- In every mode, what stripping leaves out is not a newline. -/
theorem keepsLines_stripFrom (m : Mode) (text : List Char) :
    KeepsLines text (stripFrom m text) := by
  fun_induction stripFrom m text with
  | case1 => exact .nil
  -- quoted: an escape, the closing quote, any other character
  | case2 c rest ih => exact .keep _ (.keep _ ih)
  | case3 rest _ ih => exact .keep _ ih
  | case4 c rest _ _ ih => exact .keep _ ih
  -- line comment: its end, any other character
  | case5 rest ih => exact .keep _ ih
  | case6 c rest hc ih => exact .drop hc ih
  -- block comment: its end, a newline, any other character
  | case7 rest ih => exact .drop (by decide) (.drop (by decide) ih)
  | case8 rest _ ih => exact .keep _ ih
  | case9 c rest _ hc ih => exact .drop hc ih
  -- plain: the two marks of a comment, a quote, a comma in front of a bracket, any other character
  | case10 rest ih => exact .drop (by decide) (.drop (by decide) ih)
  | case11 rest ih => exact .drop (by decide) (.drop (by decide) ih)
  | case12 rest _ _ ih => exact .keep _ ih
  | case13 c rest _ _ _ hcomma ih =>
    obtain ⟨rfl, -⟩ := hcomma
    exact .drop (by decide) ih
  | case14 c rest _ _ _ _ ih => exact .keep _ ih

/-! ## Places -/

/-- The characters of a result are found at their places in the source, in ascending order, with
as many newlines before them, and no newline of the source is missing. -/
structure Places (source result : List Char) (place : ℕ → ℕ) : Prop where
  ascending : StrictMono place
  same : ∀ i < result.length, source[place i]? = result[i]?
  newlines : ∀ i < result.length,
    (source.take (place i)).count '\n' = (result.take i).count '\n'
  kept : ∀ j, source[j]? = some '\n' → ∃ i < result.length, place i = j

/-- Places behind a character that is kept at the front. -/
def shifted (place : ℕ → ℕ) : ℕ → ℕ
  | 0 => 0
  | i + 1 => place i + 1

variable {source result : List Char} {place : ℕ → ℕ}

theorem Places.keep (h : Places source result place) (c : Char) :
    Places (c :: source) (c :: result) (shifted place) where
  ascending := by
    apply strictMono_nat_of_lt_succ
    intro i
    cases i with
    | zero => exact Nat.succ_pos _
    | succ i => exact Nat.succ_lt_succ (h.ascending (Nat.lt_succ_self i))
  same := by
    intro i hi
    cases i with
    | zero => rfl
    | succ i => simpa [shifted] using h.same i (Nat.lt_of_succ_lt_succ hi)
  newlines := by
    intro i hi
    cases i with
    | zero => rfl
    | succ i =>
      have hcount := h.newlines i (Nat.lt_of_succ_lt_succ hi)
      simp only [shifted, List.take_succ_cons, List.count_cons, hcount]
  kept := by
    intro j hj
    cases j with
    | zero => exact ⟨0, Nat.succ_pos _, rfl⟩
    | succ j =>
      obtain ⟨i, hi, rfl⟩ := h.kept j (by simpa using hj)
      exact ⟨i + 1, Nat.succ_lt_succ hi, rfl⟩

theorem Places.drop (h : Places source result place) {c : Char} (hc : c ≠ '\n') :
    Places (c :: source) result (fun i => place i + 1) where
  ascending := fun _ _ hij => Nat.succ_lt_succ (h.ascending hij)
  same := by
    intro i hi
    simpa using h.same i hi
  newlines := by
    intro i hi
    rw [List.take_succ_cons, List.count_cons_of_ne (by simpa using hc), h.newlines i hi]
  kept := by
    intro j hj
    cases j with
    | zero => exact absurd (by simpa using hj) hc
    | succ j =>
      obtain ⟨i, hi, rfl⟩ := h.kept j (by simpa using hj)
      exact ⟨i, hi, rfl⟩

/-- What is left has places in the source. -/
theorem KeepsLines.exists_places (h : KeepsLines source result) :
    ∃ place, Places source result place := by
  induction h with
  | nil => exact ⟨id, strictMono_id, by simp, by simp, by simp⟩
  | keep c more ih =>
    obtain ⟨place, hplace⟩ := ih
    exact ⟨_, hplace.keep c⟩
  | drop hc more ih =>
    obtain ⟨place, hplace⟩ := ih
    exact ⟨_, hplace.drop hc⟩

theorem KeepsLines.count_eq (h : KeepsLines source result) :
    result.count '\n' = source.count '\n' := by
  induction h with
  | nil => rfl
  | keep c more ih => rw [List.count_cons, List.count_cons, ih]
  | drop hc more ih => rw [List.count_cons_of_ne (by simpa using hc), ih]

/-! ## Lines -/

/-- The line of a character is one more than the number of newlines up to it. -/
theorem lineOf_drop (text : List Char) (n : ℕ) :
    lineOf text (text.drop n) = 1 + (text.take n).count '\n' := by
  have hcount : (text.take n).count '\n' + (text.drop n).count '\n' = text.count '\n' := by
    rw [← List.count_append, List.take_append_drop]
  unfold lineOf
  omega

/-- A character that is left stands in the line that it has in the source. -/
theorem Places.lineOf_eq (h : Places source result place) {i : ℕ} (hi : i < result.length) :
    lineOf result (result.drop (i + 1)) = lineOf source (source.drop (place i + 1)) := by
  have hsame := h.same i hi
  rw [List.getElem?_eq_getElem hi] at hsame
  obtain ⟨hplace, hchar⟩ := List.getElem?_eq_some_iff.mp hsame
  -- up to the character there are as many newlines, and the character is the same
  rw [lineOf_drop, lineOf_drop, List.take_succ_eq_append_getElem hi,
    List.take_succ_eq_append_getElem hplace, List.count_append, List.count_append, h.newlines i hi,
    hchar]

/-- The end of what is left is the end of the source. -/
theorem KeepsLines.lineOf_nil (h : KeepsLines source result) :
    lineOf result [] = lineOf source [] := by
  rw [lineOf, lineOf, h.count_eq]

end NameResolution.Jsonc
