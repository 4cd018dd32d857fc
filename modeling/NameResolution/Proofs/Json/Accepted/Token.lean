import Mathlib.Data.List.TakeWhile
import NameResolution.Proofs.Json.Token

/-!
# What the tokens of a text say about it

The other direction of reading tokens: where a token is not at fault, the text goes on
with the piece that the token stands for, and the next token is looked for right behind
that piece (`lexemeAt_sound`). Words, numerals and quoted texts are followed through
their scanners, part by part.
-/

namespace NameResolution.Json

/-! ## Words -/

/-- A word that is read is the one that was expected, and is written in front. -/
theorem scanWord_ok {value w : Word} {letters text rest : List Char}
    (h : scanWord value letters text = .ok (w, rest)) : w = value ∧ text = letters ++ rest := by
  induction letters generalizing text with
  | nil =>
    obtain ⟨rfl, rfl⟩ := Prod.mk.inj (Except.ok.inj h)
    exact ⟨rfl, rfl⟩
  | cons l letters ih =>
    cases text with
    | nil => cases h
    | cons c text =>
      rw [scanWord] at h
      split at h
      next hc =>
        obtain ⟨hw, htext⟩ := ih h
        exact ⟨hw, by rw [hc, htext, List.cons_append]⟩
      next => cases h

/-! ## Numerals -/

/-- A run of digits, as far as it goes. -/
def Digits.run (c : Char) (hc : c.isDigit = true) (rest : List Char) : Digits where
  first := c
  more := rest.takeWhile Char.isDigit
  isDigit := ⟨hc, fun _ h => List.mem_takeWhile_imp h⟩

/-- A run of digits and what is behind it make up the text. -/
theorem Digits.run_append (c : Char) (hc : c.isDigit = true) (rest : List Char) :
    (Digits.run c hc rest).text ++ rest.dropWhile Char.isDigit = c :: rest := by
  show c :: (rest.takeWhile Char.isDigit ++ rest.dropWhile Char.isDigit) = _
  rw [List.takeWhile_append_dropWhile]

/-- Digits that are read are written in front. -/
theorem scanDigits_ok {text ds rest : List Char} (h : scanDigits text = .ok (ds, rest)) :
    ∃ d : Digits, text = d.text ++ rest := by
  cases text with
  | nil => cases h
  | cons c text =>
    rw [scanDigits] at h
    split at h
    next hc =>
      obtain ⟨rfl, rfl⟩ := Prod.mk.inj (Except.ok.inj h)
      exact ⟨.run c hc text, (Digits.run_append c hc text).symm⟩
    next => cases h

/-- A whole part that is read is written in front, and does not begin with a zero if it is longer.
-/
theorem scanWhole_ok {text ds rest : List Char} (h : scanWhole text = .ok (ds, rest)) :
    ∃ d : Digits, (d.first = '0' → d.more = []) ∧ text = d.text ++ rest := by
  cases text with
  | nil => cases h
  | cons c text =>
    simp only [scanWhole] at h
    by_cases hzero : c = '0'
    · -- a zero stands alone, or the scan is at fault
      subst hzero
      have hrest : rest = text := by
        cases text with
        | nil =>
          obtain ⟨-, rfl⟩ := Prod.mk.inj (Except.ok.inj h)
          rfl
        | cons d text =>
          simp only [if_true] at h
          split at h
          next => cases h
          next =>
            obtain ⟨-, rfl⟩ := Prod.mk.inj (Except.ok.inj h)
            rfl
      subst hrest
      exact ⟨⟨'0', [], rfl, by simp⟩, fun _ => rfl, rfl⟩
    · rw [if_neg hzero] at h
      split at h
      next hc =>
        obtain ⟨rfl, rfl⟩ := Prod.mk.inj (Except.ok.inj h)
        exact ⟨.run c hc text, fun h0 => absurd h0 hzero, (Digits.run_append c hc text).symm⟩
      next => cases h

/-- A fraction that is read is written in front, if there is one. -/
theorem scanFraction_ok {text rest : List Char} {ds : Option (List Char)}
    (h : scanFraction text = .ok (ds, rest)) :
    ∃ fraction : Option Digits,
      text = (match fraction with | none => [] | some d => '.' :: d.text) ++ rest := by
  unfold scanFraction at h
  split at h
  next text =>
    cases hscan : scanDigits text with
    | error f =>
      rw [hscan] at h
      cases h
    | ok outcome =>
      rw [hscan] at h
      obtain ⟨-, rfl⟩ := Prod.mk.inj (Except.ok.inj h)
      obtain ⟨d, hd⟩ := scanDigits_ok hscan
      exact ⟨some d, by rw [hd]; rfl⟩
  next =>
    obtain ⟨-, rfl⟩ := Prod.mk.inj (Except.ok.inj h)
    exact ⟨none, rfl⟩

/-- The sign of an exponent is written in front, if there is one. -/
theorem scanSign_eq (text : List Char) :
    ∃ sign : ExponentSign, text = sign.text ++ (scanSign text).2 := by
  unfold scanSign
  split
  next => exact ⟨.minus, rfl⟩
  next => exact ⟨.plus, rfl⟩
  next => exact ⟨.unwritten, rfl⟩

/-- An exponent that is read is written in front, if there is one. -/
theorem scanExponent_ok {text rest : List Char} {e : Option (Bool × List Char)}
    (h : scanExponent text = .ok (e, rest)) :
    ∃ exponent : Option WrittenExponent,
      text = (match exponent with | none => [] | some x => x.text) ++ rest := by
  cases text with
  | nil =>
    obtain ⟨-, rfl⟩ := Prod.mk.inj (Except.ok.inj h)
    exact ⟨none, rfl⟩
  | cons c text =>
    rw [scanExponent] at h
    split at h
    next hc =>
      cases hscan : scanDigits (scanSign text).2 with
      | error f =>
        simp only [hscan] at h
        cases h
      | ok outcome =>
        simp only [hscan] at h
        obtain ⟨-, rfl⟩ := Prod.mk.inj (Except.ok.inj h)
        obtain ⟨sign, hsign⟩ := scanSign_eq text
        obtain ⟨d, hd⟩ := scanDigits_ok hscan
        refine ⟨some ⟨c == 'E', sign, d⟩, ?_⟩
        have hletter : (if c == 'E' then 'E' else 'e') = c := by
          rcases hc with rfl | rfl <;> rfl
        show c :: text = ((if c == 'E' then 'E' else 'e') :: (sign.text ++ d.text)) ++ outcome.2
        rw [hletter, List.cons_append, List.append_assoc, ← hd, ← hsign]
    next =>
      obtain ⟨-, rfl⟩ := Prod.mk.inj (Except.ok.inj h)
      exact ⟨none, rfl⟩

/-- What is read behind the sign of a numeral makes one together with it. -/
theorem scanUnsigned_ok {negative : Bool} {text rest : List Char} {x : Numeral}
    (h : scanUnsigned negative text = .ok (x, rest)) :
    ∃ w : WrittenNumeral,
      w.text ++ rest = (if negative then ['-'] else []) ++ text := by
  unfold scanUnsigned at h
  cases hwhole : scanWhole text with
  | error f => simp [hwhole, bind, Except.bind] at h
  | ok whole =>
    cases hfraction : scanFraction whole.2 with
    | error f => simp [hwhole, hfraction, bind, Except.bind] at h
    | ok fraction =>
      cases hexponent : scanExponent fraction.2 with
      | error f => simp [hwhole, hfraction, hexponent, bind, Except.bind] at h
      | ok exponent =>
        simp only [hwhole, hfraction, hexponent, bind, Except.bind] at h
        obtain ⟨-, rfl⟩ := Prod.mk.inj (Except.ok.inj h)
        -- the three parts stand one behind the other
        obtain ⟨d, hd, htext⟩ := scanWhole_ok hwhole
        obtain ⟨fraction', hfraction'⟩ := scanFraction_ok hfraction
        obtain ⟨exponent', hexponent'⟩ := scanExponent_ok hexponent
        refine ⟨⟨negative, d, hd, fraction', exponent'⟩, ?_⟩
        rw [htext, hfraction', hexponent', WrittenNumeral.text]
        rw [List.append_assoc, List.append_assoc, List.append_assoc]
        rfl

/-- A numeral that is read is written in front. -/
theorem scanNumeral_ok {text rest : List Char} {x : Numeral}
    (h : scanNumeral text = .ok (x, rest)) : ∃ w : WrittenNumeral, text = w.text ++ rest := by
  unfold scanNumeral at h
  split at h
  next =>
    obtain ⟨w, hw⟩ := scanUnsigned_ok h
    exact ⟨w, hw.symm⟩
  next =>
    obtain ⟨w, hw⟩ := scanUnsigned_ok h
    exact ⟨w, hw.symm⟩

/-! ## Quoted texts -/

/-- What is worth a digit is one. -/
theorem isHex_of_hexDigit? {c : Char} {d : Nat} (h : hexDigit? c = some d) : isHex c = true := by
  unfold hexDigit? at h
  unfold isHex
  split at h
  next hdigit => simp [hdigit]
  next =>
    split at h
    next hsmall => simp [hsmall]
    next =>
      split at h
      next hlarge => simp [hlarge]
      next => cases h

/-- What can be escaped is one of eight characters. -/
theorem mem_of_escaped? {c e : Char} (h : escaped? c = some e) :
    c ∈ ['"', '\\', '/', 'b', 'f', 'n', 'r', 't'] := by
  unfold escaped? at h
  split at h
  all_goals simp_all

/-- What the reader of a quoted text has behind it of a stroke that has begun. -/
inductive QuotedMode.Begun : QuotedMode → List Char → Prop where
  | plain : Begun .plain []
  | escape : Begun .escape ['\\']
  | digits {lead : Option Nat} {unit : Nat} (ds : List Char) (hfew : ds.length ≤ 3)
    (hex : ∀ c ∈ ds, isHex c = true) : Begun (.digits lead ds.length unit) ('\\' :: 'u' :: ds)
  | pair {lead : Nat} : Begun (.pair lead) []
  | pairEscape {lead : Nat} : Begun (.pairEscape lead) ['\\']

/-- A stroke comes in front of strokes. -/
theorem quoted_cons (s : Stroke) {text behind : List Char}
    (h : ∃ strokes : List Stroke, text = strokes.flatMap Stroke.text ++ '"' :: behind) :
    ∃ strokes : List Stroke,
      s.text ++ text = strokes.flatMap Stroke.text ++ '"' :: behind := by
  obtain ⟨strokes, rfl⟩ := h
  exact ⟨s :: strokes, by rw [List.flatMap_cons, List.append_assoc]⟩

/-- With a character put in front, an outcome is right just as it was. -/
theorem of_withChar {c : Char} {x : Except Fault (List Char × List Char)} {cs behind : List Char}
    (h : withChar c x = .ok (cs, behind)) : ∃ cs', x = .ok (cs', behind) := by
  cases x with
  | error f => cases h
  | ok outcome =>
    obtain ⟨-, rfl⟩ := Prod.mk.inj (Except.ok.inj h)
    exact ⟨_, rfl⟩

/-- What is read as a quoted text is strokes up to a quote. -/
theorem scanQuoted_ok {use : Use} {m : QuotedMode} {text begun cs behind : List Char}
    (hbegun : m.Begun begun) (h : scanQuoted use m text = .ok (cs, behind)) :
    ∃ strokes : List Stroke,
      begun ++ text = strokes.flatMap Stroke.text ++ '"' :: behind := by
  induction text generalizing m begun cs with
  | nil => cases m <;> cases h
  | cons c text ih =>
    cases hbegun with
    | plain =>
      simp only [scanQuoted] at h
      split at h
      next hquote =>
        obtain ⟨-, rfl⟩ := Prod.mk.inj (Except.ok.inj h)
        exact ⟨[], by rw [hquote]; rfl⟩
      next hquote =>
        split at h
        next hslash =>
          rw [hslash]
          exact ih .escape h
        next hslash =>
          split at h
          next => cases h
          next hlow =>
            obtain ⟨cs', h⟩ := of_withChar h
            exact quoted_cons (.plain c ⟨Nat.not_lt.mp hlow, hquote, hslash⟩) (ih .plain h)
    | escape =>
      simp only [scanQuoted] at h
      split at h
      next hu =>
        rw [hu]
        exact ih (.digits [] (by simp) (by simp)) h
      next =>
        split at h
        next e he =>
          obtain ⟨cs', h⟩ := of_withChar h
          exact quoted_cons (.letter c (mem_of_escaped? he)) (ih .plain h)
        next => cases h
    | digits ds hfew hds =>
      simp only [scanQuoted] at h
      split at h
      next => cases h
      next d hd =>
        have hc := isHex_of_hexDigit? hd
        split at h
        next hmore =>
          -- the stroke goes on
          have hex : ∀ x ∈ ds ++ [c], isHex x = true := by
            intro x hx
            rcases List.mem_append.mp hx with hx | hx
            · exact hds x hx
            · rwa [List.mem_singleton.mp hx]
          have hlength : (ds ++ [c]).length = ds.length + 1 := by simp
          rw [← hlength] at h
          have hstrokes := ih (.digits (ds ++ [c]) (by omega) hex) h
          simpa using hstrokes
        next hlast =>
          -- the fourth digit ends it
          obtain ⟨w, x, y, rfl⟩ := List.length_eq_three.mp (Nat.le_antisymm hfew (by omega))
          have hex : isHex w ∧ isHex x ∧ isHex y ∧ isHex c :=
            ⟨hds w (by simp), hds x (by simp), hds y (by simp), hc⟩
          refine quoted_cons (.code w x y c hex) ?_
          split at h
          next =>
            obtain ⟨cs', h⟩ := of_withChar h
            exact ih .plain h
          next =>
            split at h
            next =>
              obtain ⟨cs', h⟩ := of_withChar h
              exact ih .plain h
            next => cases h
          next =>
            split at h
            next => exact ih .pair h
            next =>
              split at h
              next => cases h
              next =>
                obtain ⟨cs', h⟩ := of_withChar h
                exact ih .plain h
    | pair =>
      simp only [scanQuoted] at h
      split at h
      next hslash =>
        rw [hslash]
        exact ih .pairEscape h
      next => cases h
    | pairEscape =>
      simp only [scanQuoted] at h
      split at h
      next hu =>
        rw [hu]
        exact ih (.digits [] (by simp) (by simp)) h
      next => cases h

/-! ## Tokens -/

/-- The lexeme is not at fault for some use, and something is written there. -/
def Lexeme.IsSound : Lexeme → Prop
  | .word value => ∃ w, value = .ok w
  | .numeral kept skipped => (∃ x, kept = .ok x) ∨ skipped = none
  | .quoted kept skipped => (∃ cs, kept = .ok cs) ∨ skipped = none
  | .stray | .finish => False
  | _ => True

/-- The lexeme is what a reader makes of the piece. -/
def Lexeme.Shows : Lexeme → Piece → Prop
  | .openBrace, p => p = .mark .openBrace
  | .closeBrace, p => p = .mark .closeBrace
  | .openBracket, p => p = .mark .openBracket
  | .closeBracket, p => p = .mark .closeBracket
  | .colon, p => p = .mark .colon
  | .comma, p => p = .mark .comma
  | .word value, p => ∃ w, value = .ok w ∧ p = .word w
  | .numeral _ _, p => ∃ x, p = .numeral x
  | .quoted _ _, p => ∃ strokes, p = .quoted strokes
  | .stray, _ | .finish, _ => False

/-- A sound word shows the piece that is written there. -/
theorem word_sound {value : Word} {c : Char} {letters rest : List Char}
    (htext : (Piece.word value).text = c :: letters)
    (h : (Lexeme.word ((scanWord value letters rest).map Prod.fst)).IsSound) :
    ∃ p text, (Lexeme.word ((scanWord value letters rest).map Prod.fst)).Shows p ∧
      c :: rest = p.text ++ text ∧ behind? (scanWord value letters rest) = some text := by
  cases hscan : scanWord value letters rest with
  | error f =>
    rw [hscan] at h
    obtain ⟨w, hw⟩ := h
    cases hw
  | ok outcome =>
    obtain ⟨hw, hrest⟩ := scanWord_ok hscan
    refine ⟨.word value, outcome.2, ⟨outcome.1, rfl, by rw [hw]⟩, ?_, rfl⟩
    rw [htext, hrest, List.cons_append]

/-- A sound numeral is written in front of where the text goes on. -/
theorem numeral_sound {text : List Char}
    (h : (Lexeme.numeral (keptNumeral (scanNumeral text))
      (skippedNumeral (scanNumeral text))).IsSound) :
    ∃ (x : WrittenNumeral) (rest : List Char),
      text = x.text ++ rest ∧ behind? (scanNumeral text) = some rest := by
  cases hscan : scanNumeral text with
  | error f =>
    -- a numeral at fault is so for either use
    rw [hscan] at h
    rcases h with ⟨x, hx⟩ | hskipped
    · cases hx
    · cases f <;> cases hskipped
  | ok outcome =>
    obtain ⟨x, hx⟩ := scanNumeral_ok hscan
    exact ⟨x, outcome.2, hx, rfl⟩

/-- A sound quoted text is written in strokes, up to the quote behind which the text goes on. -/
theorem quoted_sound {rest : List Char}
    (h : (Lexeme.quoted ((scanQuoted .kept .plain rest).map Prod.fst)
      (faultOf? (scanQuoted .skipped .plain rest))).IsSound) :
    ∃ (strokes : List Stroke) (text : List Char),
      rest = strokes.flatMap Stroke.text ++ '"' :: text ∧
        behind? (scanQuoted .skipped .plain rest) = some text := by
  -- what is kept can be passed over, too
  obtain ⟨strokes, text, hrest⟩ : ∃ (strokes : List Stroke) (text : List Char),
      rest = strokes.flatMap Stroke.text ++ '"' :: text := by
    rcases h with ⟨cs, hkept⟩ | hskipped
    · cases hscan : scanQuoted .kept .plain rest with
      | error f =>
        rw [hscan] at hkept
        cases hkept
      | ok outcome =>
        obtain ⟨strokes, hstrokes⟩ := scanQuoted_ok .plain hscan
        exact ⟨strokes, outcome.2, hstrokes⟩
    · cases hscan : scanQuoted .skipped .plain rest with
      | error f =>
        rw [hscan] at hskipped
        cases hskipped
      | ok outcome =>
        obtain ⟨strokes, hstrokes⟩ := scanQuoted_ok .plain hscan
        exact ⟨strokes, outcome.2, hstrokes⟩
  obtain ⟨cs, hskip⟩ := scanQuoted_skipped strokes text
  rw [← hrest] at hskip
  exact ⟨strokes, text, hrest, by rw [hskip]; rfl⟩

/-- Where a lexeme is sound, the text goes on with a piece that it shows. -/
theorem lexemeAt_sound {c : Char} {rest : List Char} (h : (lexemeAt c rest).1.IsSound) :
    ∃ p text, (lexemeAt c rest).1.Shows p ∧ c :: rest = p.text ++ text ∧
      (lexemeAt c rest).2 = some text := by
  unfold lexemeAt at h ⊢
  split at h
  next => exact ⟨.mark .openBrace, rest, rfl, rfl, rfl⟩
  next => exact ⟨.mark .closeBrace, rest, rfl, rfl, rfl⟩
  next => exact ⟨.mark .openBracket, rest, rfl, rfl, rfl⟩
  next => exact ⟨.mark .closeBracket, rest, rfl, rfl, rfl⟩
  next => exact ⟨.mark .colon, rest, rfl, rfl, rfl⟩
  next => exact ⟨.mark .comma, rest, rfl, rfl, rfl⟩
  next => exact word_sound rfl h
  next => exact word_sound rfl h
  next => exact word_sound rfl h
  next =>
    obtain ⟨strokes, text, hrest, hbehind⟩ := quoted_sound h
    exact ⟨.quoted strokes, text, ⟨strokes, rfl⟩, by simp [hrest, Piece.text], hbehind⟩
  next =>
    split at h
    next hc =>
      obtain ⟨x, text, htext, hbehind⟩ := numeral_sound h
      rw [if_pos hc]
      exact ⟨.numeral x, text, ⟨x, rfl⟩, htext, hbehind⟩
    next => exact h.elim

/-- No character is the end of the text. -/
theorem lexemeAt_ne_finish (c : Char) (rest : List Char) : (lexemeAt c rest).1 ≠ .finish := by
  unfold lexemeAt
  split
  all_goals first | exact Lexeme.noConfusion | skip
  split <;> exact Lexeme.noConfusion

end NameResolution.Json
