import NameResolution.Proofs.Json.Accepted.Tree

/-!
# Faults of tokens are in the text

A malformed text is so at one of its characters: what the fault keeps is what stands behind that
character (`Fault.IsIn`). Here this is followed through the scanners, part by part, up to
the tokens of a text (`meets_of_mem_tokens`). Where a scanner succeeds, what it leaves is
known to be the end of its text already; only its faults are new.

Everything that a token can be at fault for meets a condition (`Token.Meets`), so that trees
and readers can hand the condition on without looking at texts.
-/

namespace NameResolution.Json

/-- The fault is at a character of the text, if it is at a character at all. -/
def Fault.IsIn (text : List Char) : Fault → Prop
  | .malformed behind => ∃ c, c :: behind <:+ text
  | _ => True

/-- A fault in the end of a text is in the text. -/
theorem Fault.IsIn.mono {f : Fault} {text whole : List Char} (h : f.IsIn text)
    (hsuffix : text <:+ whole) : f.IsIn whole := by
  cases f with
  | malformed behind =>
    obtain ⟨c, hc⟩ := h
    exact ⟨c, hc.trans hsuffix⟩
  | _ => trivial

/-- The character in front of a text is one at which a fault can be. -/
theorem isIn_cons (c : Char) (text : List Char) : (Fault.malformed text).IsIn (c :: text) :=
  ⟨c, List.suffix_refl _⟩

/-- A fault at the end of a text is at its last character. -/
theorem isIn_end {text : List Char} (h : text ≠ []) : (Fault.malformed []).IsIn text := by
  refine ⟨text.getLast h, text.dropLast, ?_⟩
  exact List.dropLast_append_getLast h

/-! ## Words and numerals -/

/-- A word goes wrong in the text. -/
theorem scanWord_error {value : Word} {letters text : List Char} {f : Fault}
    (h : scanWord value letters text = .error f) : f.IsIn text := by
  induction letters generalizing text with
  | nil => cases h
  | cons l letters ih =>
    cases text with
    | nil =>
      obtain rfl := Except.error.inj h
      trivial
    | cons c text =>
      rw [scanWord] at h
      split at h
      next => exact (ih h).mono (List.suffix_cons c text)
      next =>
        obtain rfl := Except.error.inj h
        exact isIn_cons c text

/-- Digits go wrong in the text. -/
theorem scanDigits_error {text : List Char} {f : Fault} (h : scanDigits text = .error f) :
    f.IsIn text := by
  cases text with
  | nil =>
    obtain rfl := Except.error.inj h
    trivial
  | cons c text =>
    rw [scanDigits] at h
    split at h
    next => cases h
    next =>
      obtain rfl := Except.error.inj h
      exact isIn_cons c text

/-- The whole part of a numeral goes wrong in the text. -/
theorem scanWhole_error {text : List Char} {f : Fault} (h : scanWhole text = .error f) :
    f.IsIn text := by
  cases text with
  | nil =>
    obtain rfl := Except.error.inj h
    trivial
  | cons c text =>
    simp only [scanWhole] at h
    split at h
    next =>
      -- behind a zero, another digit is at fault
      cases text with
      | nil => cases h
      | cons d behind =>
        simp only at h
        split at h
        next =>
          obtain rfl := Except.error.inj h
          exact (isIn_cons d behind).mono (List.suffix_cons c _)
        next => cases h
    next =>
      split at h
      next => cases h
      next =>
        obtain rfl := Except.error.inj h
        exact isIn_cons c text

/-- A fraction goes wrong in the text. -/
theorem scanFraction_error {text : List Char} {f : Fault} (h : scanFraction text = .error f) :
    f.IsIn text := by
  unfold scanFraction at h
  split at h
  next rest => exact (scanDigits_error (of_map_error h)).mono (List.suffix_cons _ rest)
  next => cases h

/-- An exponent goes wrong in the text. -/
theorem scanExponent_error {text : List Char} {f : Fault} (h : scanExponent text = .error f) :
    f.IsIn text := by
  cases text with
  | nil => cases h
  | cons c rest =>
    rw [scanExponent] at h
    split at h
    next =>
      -- the digits stand behind the letter, and behind a sign if there is one
      obtain ⟨sign, hsign⟩ := scanSign_eq rest
      have hdigits : (scanSign rest).2 <:+ c :: rest :=
        List.IsSuffix.trans ⟨sign.text, hsign.symm⟩ (List.suffix_cons c rest)
      exact (scanDigits_error (of_map_error h)).mono hdigits
    next => cases h

/-- A numeral goes wrong behind its sign in the text. -/
theorem scanUnsigned_error {negative : Bool} {text : List Char} {f : Fault}
    (h : scanUnsigned negative text = .error f) : f.IsIn text := by
  unfold scanUnsigned at h
  -- each part is scanned behind the one before it
  rcases of_bind_error h with h | ⟨⟨whole, behindWhole⟩, hwhole, h⟩
  · exact scanWhole_error h
  obtain ⟨digits, -, htext⟩ := scanWhole_ok hwhole
  have hbehindWhole : behindWhole <:+ text := ⟨digits.text, htext.symm⟩
  rcases of_bind_error h with h | ⟨⟨fraction, behindFraction⟩, hfraction, h⟩
  · exact (scanFraction_error h).mono hbehindWhole
  obtain ⟨point, hpoint⟩ := scanFraction_ok hfraction
  have hbehindFraction : behindFraction <:+ behindWhole := ⟨_, hpoint.symm⟩
  rcases of_bind_error h with h | ⟨_, -, h⟩
  · exact (scanExponent_error h).mono (hbehindFraction.trans hbehindWhole)
  · cases h

/-- A numeral goes wrong in the text. -/
theorem scanNumeral_error {text : List Char} {f : Fault} (h : scanNumeral text = .error f) :
    f.IsIn text := by
  unfold scanNumeral at h
  split at h
  next rest => exact (scanUnsigned_error h).mono (List.suffix_cons _ rest)
  next => exact scanUnsigned_error h

/-- A numeral has a character, behind which the text goes on. -/
theorem exists_char_of_scanNumeral_ok {text rest : List Char} {x : Numeral}
    (h : scanNumeral text = .ok (x, rest)) : (Fault.malformed rest).IsIn text := by
  obtain ⟨w, rfl⟩ := scanNumeral_ok h
  obtain ⟨c, tail, htext, -⟩ := w.text_eq_cons
  have hne : w.text ≠ [] := by
    rw [htext]
    exact List.cons_ne_nil _ _
  obtain ⟨d, hd⟩ := isIn_end hne
  obtain ⟨before, hbefore⟩ := hd
  refine ⟨d, before, ?_⟩
  rw [← hbefore, List.append_assoc]
  rfl

/-! ## Quoted texts -/

/-- Missing digits are missed at a character, or at the one in front of the text. -/
theorem isIn_missingDigits : ∀ (bytes : ℕ) (text : List Char) (front : Char),
    (missingDigits bytes text).IsIn (front :: text)
  | 0, [], front => isIn_cons front []
  | 0, c :: rest, front => isIn_cons front (c :: rest)
  | _ + 1, [], _ => trivial
  | bytes + 1, c :: rest, front => by
    rw [missingDigits]
    · split
      next => exact (isIn_missingDigits _ rest c).mono (List.suffix_cons front _)
      next => exact (isIn_cons c rest).mono (List.suffix_cons front _)
    · simp

/-- Putting a character in front makes no fault. -/
theorem of_withChar_error {c : Char} {x : Except Fault (List Char × List Char)} {f : Fault}
    (h : withChar c x = .error f) : x = .error f := by
  cases x with
  | error f' => exact congrArg Except.error (Except.error.inj h)
  | ok outcome => cases h

/-- The body of a quoted text is at fault at a character. A raw character that is passed over is at
fault at the one in front of it, and so the text in front counts. -/
theorem scanQuoted_error {use : Use} {m : QuotedMode} {text : List Char} {f : Fault}
    (h : scanQuoted use m text = .error f) (front : Char) : f.IsIn (front :: text) := by
  induction text generalizing m front with
  | nil =>
    have hunfinished : f = .unfinished := by
      cases m <;> exact (Except.error.inj h).symm
    rw [hunfinished]
    trivial
  | cons c text ih =>
    -- in each mode the text is at fault here, or the scan goes on behind the character
    have hrest : ∀ {m' : QuotedMode}, scanQuoted use m' text = .error f →
        f.IsIn (front :: c :: text) := fun hscan => (ih hscan c).mono (List.suffix_cons front _)
    have hchar : ∀ {d : Char} {m' : QuotedMode},
        withChar d (scanQuoted use m' text) = .error f → f.IsIn (front :: c :: text) :=
      fun hscan => hrest (of_withChar_error hscan)
    have hhere : .error (.malformed text) = (.error f : Except Fault (List Char × List Char)) →
        f.IsIn (front :: c :: text) := by
      intro hfault
      obtain rfl := Except.error.inj hfault
      exact (isIn_cons c text).mono (List.suffix_cons front _)
    cases m with
    | plain =>
      simp only [scanQuoted] at h
      split at h
      next => cases h
      next =>
        split at h
        next => exact hrest h
        next =>
          split at h
          next =>
            cases use with
            | kept => exact hhere h
            | skipped =>
              obtain rfl := Except.error.inj h
              exact isIn_cons front _
          next => exact hchar h
    | escape =>
      simp only [scanQuoted] at h
      split at h
      next => exact hrest h
      next =>
        split at h
        next => exact hchar h
        next => exact hhere h
    | digits lead n unit =>
      simp only [scanQuoted] at h
      split at h
      next =>
        obtain rfl := Except.error.inj h
        exact isIn_missingDigits _ _ front
      next =>
        split at h
        next => exact hrest h
        next =>
          split at h
          next => exact hchar h
          next =>
            split at h
            next => exact hchar h
            next => exact hhere h
          next =>
            split at h
            next => exact hrest h
            next =>
              split at h
              next => exact hhere h
              next => exact hchar h
    | pair lead =>
      simp only [scanQuoted] at h
      split at h
      next => exact hrest h
      next => exact hhere h
    | pairEscape lead =>
      simp only [scanQuoted] at h
      split at h
      next => exact hrest h
      next => exact hhere h

/-! ## Tokens -/

section Meets

variable (P : Fault → Prop)

/-- Whatever the lexeme is at fault for, for either use, meets a condition. -/
def Lexeme.Meets : Lexeme → Prop
  | .word value => ∀ f, value = .error f → P f
  | .numeral kept skipped => (∀ f, kept = .error f → P f) ∧ ∀ f, skipped = some f → P f
  | .quoted kept skipped => (∀ f, kept = .error f → P f) ∧ ∀ f, skipped = some f → P f
  | _ => True

/-- Whatever the token is at fault for meets a condition, its own place included. -/
def Token.Meets (t : Token) : Prop := t.lexeme.Meets P ∧ P (.malformed t.behind)

end Meets

/-- What meets a condition meets any that follows from it. -/
theorem Lexeme.Meets.imp {P Q : Fault → Prop} (h : ∀ f, P f → Q f) {l : Lexeme}
    (hmeets : l.Meets P) : l.Meets Q := by
  cases l with
  | word value => exact fun f hf => h f (hmeets f hf)
  | numeral kept skipped => exact ⟨fun f hf => h f (hmeets.1 f hf), fun f hf => h f (hmeets.2 f hf)⟩
  | quoted kept skipped => exact ⟨fun f hf => h f (hmeets.1 f hf), fun f hf => h f (hmeets.2 f hf)⟩
  | _ => trivial

/-- A numeral's faults, for either use, are in its text. -/
theorem meets_numeral {text : List Char} (hne : text ≠ []) :
    (Lexeme.numeral (keptNumeral (scanNumeral text)) (skippedNumeral (scanNumeral text))).Meets
      (Fault.IsIn text) := by
  cases hscan : scanNumeral text with
  | error fault =>
    have hfault := scanNumeral_error hscan
    constructor
    · intro f hf
      obtain rfl := Except.error.inj hf
      exact hfault
    · intro f hf
      -- an early end is at fault at the end of the text
      cases fault with
      | unfinished =>
        obtain rfl := Option.some.inj hf
        exact isIn_end hne
      | malformed behind =>
        obtain rfl := Option.some.inj hf
        exact hfault
      | mistyped =>
        obtain rfl := Option.some.inj hf
        trivial
      | badFlag s =>
        obtain rfl := Option.some.inj hf
        trivial
  | ok outcome =>
    have hrest := exists_char_of_scanNumeral_ok hscan
    constructor
    · intro f hf
      simp only [keptNumeral] at hf
      split at hf
      next => cases hf
      next =>
        obtain rfl := Except.error.inj hf
        exact hrest
    · intro f hf
      cases hf

/-- The faults of a quoted text, for either use, are behind its quote. -/
theorem meets_quoted (rest : List Char) :
    (Lexeme.quoted ((scanQuoted .kept .plain rest).map Prod.fst)
      (faultOf? (scanQuoted .skipped .plain rest))).Meets (Fault.IsIn ('"' :: rest)) := by
  constructor
  · intro f hf
    exact scanQuoted_error (of_map_error hf) '"'
  · intro f hf
    cases hscan : scanQuoted .skipped .plain rest with
    | error fault =>
      rw [hscan] at hf
      obtain rfl := Option.some.inj hf
      exact scanQuoted_error hscan '"'
    | ok outcome =>
      rw [hscan] at hf
      cases hf

/-- What the lexeme at a character is at fault for is in the text from there on. -/
theorem lexemeAt_meets (c : Char) (rest : List Char) :
    (lexemeAt c rest).1.Meets (Fault.IsIn (c :: rest)) := by
  have hword : ∀ (value : Word) (letters : List Char) (d : Char),
      (Lexeme.word ((scanWord value letters rest).map Prod.fst)).Meets
        (Fault.IsIn (d :: rest)) := fun value letters d f hf =>
    (scanWord_error (of_map_error hf)).mono (List.suffix_cons d rest)
  unfold lexemeAt
  split
  case h_7 => exact hword .null _ _
  case h_8 => exact hword .yes _ _
  case h_9 => exact hword .no _ _
  case h_10 => exact meets_quoted rest
  case h_11 =>
    split
    next => exact meets_numeral (List.cons_ne_nil _ _)
    next => trivial
  all_goals trivial

/-- Behind a lexeme the text goes on with an end of it. -/
theorem suffix_of_lexemeAt {c : Char} {rest text : List Char}
    (h : (lexemeAt c rest).2 = some text) : text <:+ rest := by
  have hword : ∀ (value : Word) (letters : List Char),
      behind? (scanWord value letters rest) = some text → text <:+ rest := by
    intro value letters hbehind
    cases hscan : scanWord value letters rest with
    | error fault =>
      rw [hscan] at hbehind
      cases hbehind
    | ok outcome =>
      rw [hscan] at hbehind
      obtain rfl := Option.some.inj hbehind
      exact ⟨letters, (scanWord_ok hscan).2.symm⟩
  unfold lexemeAt at h
  split at h
  case h_7 => exact hword .null _ h
  case h_8 => exact hword .yes _ h
  case h_9 => exact hword .no _ h
  case h_10 =>
    cases hscan : scanQuoted .skipped .plain rest with
    | error fault =>
      simp only [hscan] at h
      cases h
    | ok outcome =>
      simp only [hscan] at h
      obtain rfl := Option.some.inj h
      obtain ⟨strokes, hstrokes⟩ := scanQuoted_ok .plain hscan
      refine ⟨strokes.flatMap Stroke.text ++ ['"'], ?_⟩
      rw [List.append_assoc]
      exact hstrokes.symm
  case h_11 =>
    split at h
    next =>
      cases hscan : scanNumeral (c :: rest) with
      | error fault =>
        simp only [hscan] at h
        cases h
      | ok outcome =>
        simp only [hscan] at h
        obtain rfl := Option.some.inj h
        obtain ⟨w, hw⟩ := scanNumeral_ok hscan
        obtain ⟨d, tail, htext, -⟩ := w.text_eq_cons
        rw [htext, List.cons_append] at hw
        exact ⟨tail, (List.cons.inj hw).2.symm⟩
    next => cases h
  all_goals
    obtain rfl := Option.some.inj h
    exact List.suffix_refl _

/-- All faults of the tokens of a text are in the text. -/
theorem meets_of_mem_tokensWithin {whole : List Char} (hwhole : whole ≠ []) :
    ∀ {bound : ℕ} {text : List Char}, text <:+ whole →
      ∀ t ∈ tokensWithin bound text, t.Meets (Fault.IsIn whole) := by
  intro bound
  have hfinish : (⟨.finish, []⟩ : Token).Meets (Fault.IsIn whole) := ⟨trivial, isIn_end hwhole⟩
  induction bound with
  | zero =>
    intro text _ t ht
    rw [List.mem_singleton.mp ht]
    exact hfinish
  | succ bound ih =>
    intro text htext t ht
    unfold tokensWithin at ht
    split at ht
    next =>
      rw [List.mem_singleton.mp ht]
      exact hfinish
    next c rest hrest =>
      have hsuffix : c :: rest <:+ whole := by
        rw [← hrest]
        exact (List.dropWhile_suffix _).trans htext
      have hlexeme : (lexemeAt c rest).1.Meets (Fault.IsIn whole) :=
        (lexemeAt_meets c rest).imp fun f hf => hf.mono hsuffix
      have hplace : (Fault.malformed rest).IsIn whole := (isIn_cons c rest).mono hsuffix
      split at ht
      next lexeme text' hlex =>
        rw [hlex] at hlexeme
        rcases List.mem_cons.mp ht with rfl | ht
        · exact ⟨hlexeme, hplace⟩
        · have hbehind : text' <:+ rest := suffix_of_lexemeAt (by rw [hlex])
          exact ih ((hbehind.trans (List.suffix_cons c rest)).trans hsuffix) t ht
      next lexeme hlex =>
        rw [hlex] at hlexeme
        rw [List.mem_singleton.mp ht]
        exact ⟨hlexeme, hplace⟩

/-- Whatever a token of a text is at fault for is in the text. -/
theorem meets_of_mem_tokens {text : List Char} (hne : text ≠ []) :
    ∀ t ∈ tokens text, t.Meets (Fault.IsIn text) :=
  meets_of_mem_tokensWithin hne (List.suffix_refl text)

end NameResolution.Json
