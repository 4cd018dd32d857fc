import NameResolution.Proofs.Json.Accepted.Tree
import NameResolution.Proofs.Jsonc.Decoration

/-!
# Documents glyph by glyph

A character of a document stands for itself, in quotes, or in a comment; a glyph is a
character together with that. What stripping does to a document can be said of its
glyphs one by one (`stripFrom_eq`): it leaves out those of comments, newlines excepted,
and each comma that a closing bracket follows.

Where stripping leaves a quoted text, the document has the same quoted text
(`of_strip_strokes`); so both agree on what is quoted and what is not.
-/

namespace NameResolution.Jsonc

open Json (Stroke ne_of_test)

/-- A character of a document, with what it stands in. -/
inductive Glyph where
  /-- Outside of quotes and comments. -/
  | plain (c : Char)
  /-- In quotes, or one of them. -/
  | quoted (c : Char)
  /-- The slash that a comment begins with. -/
  | opener
  /-- In a comment, behind its first character. -/
  | comment (c : Char)
deriving DecidableEq

/-- The glyphs of a text that begins in a mode. -/
def glyphsFrom : Mode → List Char → List Glyph
  | _, [] => []
  | .quoted, '\\' :: c :: rest => .quoted '\\' :: .quoted c :: glyphsFrom .quoted rest
  | .quoted, c :: rest =>
    if c = '"' then .quoted c :: glyphsFrom .plain rest else .quoted c :: glyphsFrom .quoted rest
  | .lineComment, c :: rest =>
    if c = '\n' then .plain c :: glyphsFrom .plain rest
    else .comment c :: glyphsFrom .lineComment rest
  | .blockComment, '*' :: '/' :: rest => .comment '*' :: .comment '/' :: glyphsFrom .plain rest
  | .blockComment, c :: rest => .comment c :: glyphsFrom .blockComment rest
  | .plain, '/' :: '/' :: rest => .opener :: .comment '/' :: glyphsFrom .lineComment rest
  | .plain, '/' :: '*' :: rest => .opener :: .comment '*' :: glyphsFrom .blockComment rest
  | .plain, c :: rest =>
    if c = '"' then .quoted c :: glyphsFrom .quoted rest else .plain c :: glyphsFrom .plain rest

/-- The glyphs of a document. -/
def glyphs (document : List Char) : List Glyph := glyphsFrom .plain document

/-- Is a closing bracket the first glyph that is neither blank nor in a comment? -/
def closes : List Glyph → Bool
  | [] => false
  | .opener :: gs | .comment _ :: gs => closes gs
  | .quoted _ :: _ => false
  | .plain c :: gs => if Text.isBlank c then closes gs else c = '}' ∨ c = ']'

/-- What stripping leaves of glyphs. -/
def stripped : List Glyph → List Char
  | [] => []
  | .opener :: gs => stripped gs
  | .comment c :: gs => if c = '\n' then c :: stripped gs else stripped gs
  | .quoted c :: gs => c :: stripped gs
  | .plain c :: gs => if c = ',' ∧ closes gs then stripped gs else c :: stripped gs

/-- Whether a text closes next can be seen from its glyphs. -/
theorem closesNext_eq {m : Mode} (hm : m ≠ .quoted) (text : List Char) :
    closesNext m text = closes (glyphsFrom m text) := by
  fun_induction closesNext m text with
  | case2 rest ih =>
    rw [glyphsFrom, if_pos rfl, closes, ← ih (by decide)]
    rfl
  | case6 m rest => cases m <;> simp_all [glyphsFrom, closes]
  | case7 m rest => cases m <;> simp_all [glyphsFrom, closes]
  | case8 m c rest =>
    cases m with
    | plain =>
      have hquote : c ≠ '"' := by
        rintro rfl
        simp_all [Text.isBlank, Text.inRanges, Text.blankRanges]
      simp_all [glyphsFrom, closes]
    | _ => simp_all
  | case9 m c rest =>
    cases m with
    | plain =>
      by_cases hquote : c = '"' <;> simp_all [glyphsFrom, closes]
    | _ => simp_all
  | _ => simp_all [glyphsFrom, closes]

/-- Stripping a text is leaving out some of its glyphs. -/
theorem stripFrom_eq (m : Mode) (text : List Char) :
    stripFrom m text = stripped (glyphsFrom m text) := by
  fun_induction stripFrom m text with
  | case13 c rest => simp_all [glyphsFrom, stripped, closesNext_eq]
  | case14 c rest => simp_all [glyphsFrom, stripped, closesNext_eq]
  | _ => simp_all [glyphsFrom, stripped]

theorem strip_eq (document : List Char) : strip document = stripped (glyphs document) :=
  stripFrom_eq .plain document

/-- The glyphs of a text that begins outside of quotes, and perhaps inside of a comment. -/
inductive Outside : Bool → List Glyph → Prop where
  | nil {inside : Bool} : Outside inside []
  | plain {inside : Bool} {gs : List Glyph} (c : Char) (h : c ≠ '"') (more : Outside false gs) :
    Outside inside (.plain c :: gs)
  | opener {gs : List Glyph} (more : Outside true gs) : Outside false (.opener :: gs)
  | comment {inside : Bool} {gs : List Glyph} (c : Char) (more : Outside inside gs) :
    Outside true (.comment c :: gs)
  | quoted (body : List Char) : Outside false (.quoted '"' :: glyphsFrom .quoted body)

theorem outside_glyphsFrom {m : Mode} (hm : m ≠ .quoted) (text : List Char) :
    Outside (m ≠ .plain) (glyphsFrom m text) := by
  fun_induction glyphsFrom m text with
  | case1 => exact .nil
  | case2 => exact absurd rfl hm
  | case3 => exact absurd rfl hm
  | case4 => exact absurd rfl hm
  | case5 rest ih => exact .plain _ (by decide) (ih (by decide))
  | case6 c rest hc ih => exact .comment _ (ih (by decide))
  | case7 rest ih => exact .comment _ (.comment _ (ih (by decide)))
  | case8 c rest _ ih => exact .comment _ (ih (by decide))
  | case9 rest ih => exact .opener (.comment _ (ih (by decide)))
  | case10 rest ih => exact .opener (.comment _ (ih (by decide)))
  | case11 => exact .quoted _
  | case12 c rest _ _ hc ih => exact .plain _ hc (ih (by decide))

/-- The glyphs of a document begin outside of quotes. -/
theorem outside_glyphs (document : List Char) : Outside false (glyphs document) :=
  outside_glyphsFrom (m := .plain) (by decide) document

/-! ## Quoted texts -/

theorem glyphsFrom_quoted_cons {c : Char} (hquote : c ≠ '"') (hslash : c ≠ '\\')
    (rest : List Char) : glyphsFrom .quoted (c :: rest) = .quoted c :: glyphsFrom .quoted rest := by
  rw [glyphsFrom]
  · rw [if_neg hquote]
  · rintro _ _ rfl
    exact absurd rfl hslash

/-- In quotes, strokes are read as they are written. -/
theorem glyphsFrom_strokes : ∀ (strokes : List Stroke) (rest : List Char),
    glyphsFrom .quoted (strokes.flatMap Stroke.text ++ '"' :: rest) =
      (strokes.flatMap Stroke.text ++ ['"']).map Glyph.quoted ++ glyphsFrom .plain rest
  | [], rest => rfl
  | s :: strokes, rest => by
    have hs : ∀ text, glyphsFrom .quoted (s.text ++ text) =
        s.text.map Glyph.quoted ++ glyphsFrom .quoted text := by
      intro text
      cases s with
      | plain c fits => exact glyphsFrom_quoted_cons fits.2.1 fits.2.2 text
      | letter c known => rfl
      | code a b c d hex =>
        have hdigit : ∀ x : Char, Json.isHex x = true → ∀ text,
            glyphsFrom .quoted (x :: text) = .quoted x :: glyphsFrom .quoted text := fun x hx =>
          glyphsFrom_quoted_cons (ne_of_test hx rfl) (ne_of_test hx rfl)
        obtain ⟨ha, hb, hc, hd⟩ := hex
        show .quoted '\\' :: .quoted 'u' :: glyphsFrom .quoted (a :: b :: c :: d :: text) = _
        rw [hdigit a ha, hdigit b hb, hdigit c hc, hdigit d hd]
        rfl
    rw [List.flatMap_cons, List.append_assoc, hs, glyphsFrom_strokes strokes]
    simp

/-- What is left of glyphs is left of quoted ones as it is. -/
structure KeepsQuotes (left : List Glyph → List Char) : Prop where
  nil : left [] = []
  quoted : ∀ c gs, left (.quoted c :: gs) = c :: left gs

/-- Stripping keeps what is in quotes. -/
theorem keepsQuotes_stripped : KeepsQuotes stripped := ⟨rfl, fun _ _ => rfl⟩

namespace KeepsQuotes

variable {left : List Glyph → List Char} (hleft : KeepsQuotes left)

include hleft

theorem first {body text : List Char} {c : Char} (h : left (glyphsFrom .quoted body) = c :: text) :
    ∃ behind, body = c :: behind := by
  unfold glyphsFrom at h
  split at h
  case h_2 d rest =>
    rw [hleft.quoted] at h
    exact ⟨_, by rw [(List.cons.inj h).1]⟩
  case h_3 rest _ _ =>
    split at h
    all_goals
      rw [hleft.quoted] at h
      exact ⟨rest, by rw [(List.cons.inj h).1]⟩
  all_goals simp_all [hleft.nil]

/-- An ordinary character that is left in quotes stood there. -/
theorem ordinary {body text : List Char} {c : Char} (hquote : c ≠ '"') (hslash : c ≠ '\\')
    (h : left (glyphsFrom .quoted body) = c :: text) :
    ∃ behind, body = c :: behind ∧ left (glyphsFrom .quoted behind) = text := by
  obtain ⟨behind, rfl⟩ := hleft.first h
  rw [glyphsFrom_quoted_cons hquote hslash, hleft.quoted] at h
  exact ⟨behind, rfl, (List.cons.inj h).2⟩

/-- An escape that is left in quotes stood there. -/
theorem escape {body text : List Char} {c : Char}
    (h : left (glyphsFrom .quoted body) = '\\' :: c :: text) :
    ∃ behind, body = '\\' :: c :: behind ∧ left (glyphsFrom .quoted behind) = text := by
  obtain ⟨behind, rfl⟩ := hleft.first h
  cases behind with
  | nil =>
    rw [show glyphsFrom .quoted ['\\'] = [.quoted '\\'] from rfl, hleft.quoted, hleft.nil] at h
    cases h
  | cons d behind =>
    rw [glyphsFrom, hleft.quoted, hleft.quoted] at h
    obtain ⟨rfl, hrest⟩ := List.cons.inj (List.cons.inj h).2
    exact ⟨behind, rfl, hrest⟩

/-- Strokes up to a quote are left of just these strokes and the quote. -/
theorem strokes : ∀ {strokes : List Stroke} {body rest : List Char},
    left (glyphsFrom .quoted body) = strokes.flatMap Stroke.text ++ '"' :: rest →
    ∃ behind, body = strokes.flatMap Stroke.text ++ '"' :: behind ∧
      left (glyphsFrom .plain behind) = rest
  | [], body, rest, h => by
    obtain ⟨behind, rfl⟩ := hleft.first h
    rw [show glyphsFrom .quoted ('"' :: behind) = .quoted '"' :: glyphsFrom .plain behind from rfl,
      hleft.quoted] at h
    exact ⟨behind, rfl, (List.cons.inj h).2⟩
  | s :: strokes, body, rest, h => by
    rw [List.flatMap_cons, List.append_assoc] at h
    obtain ⟨middle, rfl, hmiddle⟩ : ∃ middle, body = s.text ++ middle ∧
        left (glyphsFrom .quoted middle) = strokes.flatMap Stroke.text ++ '"' :: rest := by
      cases s with
      | plain c fits => exact hleft.ordinary fits.2.1 fits.2.2 h
      | letter c known => exact hleft.escape h
      | code a b c d hex =>
        obtain ⟨ha, hb, hc, hd⟩ := hex
        have hdigit : ∀ {x : Char} {body text : List Char}, Json.isHex x = true →
            left (glyphsFrom .quoted body) = x :: text →
            ∃ behind, body = x :: behind ∧ left (glyphsFrom .quoted behind) = text := fun hx =>
          hleft.ordinary (ne_of_test hx rfl) (ne_of_test hx rfl)
        obtain ⟨_, rfl, hu⟩ := hleft.escape h
        obtain ⟨_, rfl, hfirst⟩ := hdigit ha hu
        obtain ⟨_, rfl, hsecond⟩ := hdigit hb hfirst
        obtain ⟨_, rfl, hthird⟩ := hdigit hc hsecond
        obtain ⟨middle, rfl, hfourth⟩ := hdigit hd hthird
        exact ⟨middle, rfl, hfourth⟩
    obtain ⟨behind, rfl, hbehind⟩ := KeepsQuotes.strokes hmiddle
    exact ⟨behind, by rw [List.flatMap_cons, List.append_assoc], hbehind⟩

end KeepsQuotes

end NameResolution.Jsonc
