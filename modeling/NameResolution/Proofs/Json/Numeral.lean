import NameResolution.Proofs.Json.Grammar

/-!
# Reading numerals

A written numeral is read to its end, and for what it says, when the text behind it
does not go on with a character that could continue it (`scanNumeral_text`). The
parts are read one after the other; none but the last of them can be mistaken for
longer than it is, since each begins with a character of its own.
-/

namespace NameResolution.Json

/-- Could the character continue a numeral? -/
def continuesNumeral (c : Char) : Bool := c.isDigit || c == '.' || c == 'e' || c == 'E'

def NoDigit (text : List Char) : Prop := ∀ c ∈ text.head?, c.isDigit = false

/-- The text does not go on with a character that could continue a numeral. -/
def EndsNumeral (text : List Char) : Prop := ∀ c ∈ text.head?, continuesNumeral c = false

theorem noDigit_cons {c : Char} (h : c.isDigit = false) (text : List Char) :
    NoDigit (c :: text) := by
  intro d hd
  obtain rfl := Option.some.inj hd
  exact h

theorem EndsNumeral.noDigit {text : List Char} (h : EndsNumeral text) : NoDigit text := by
  intro c hc
  have hends := h c hc
  simp only [continuesNumeral, Bool.or_eq_false_iff] at hends
  exact hends.1.1.1

theorem span_digits {ds text : List Char} (hds : ∀ c ∈ ds, c.isDigit = true) (h : NoDigit text) :
    (ds ++ text).takeWhile Char.isDigit = ds ∧ (ds ++ text).dropWhile Char.isDigit = text := by
  -- no digit is taken from the text behind
  have hend : text.takeWhile Char.isDigit = [] ∧ text.dropWhile Char.isDigit = text := by
    cases text with
    | nil => exact ⟨rfl, rfl⟩
    | cons c rest => simp [h c rfl]
  rw [List.takeWhile_append_of_pos hds, List.dropWhile_append_of_pos hds, hend.1, hend.2]
  simp

theorem scanDigits_text (ds : Digits) {text : List Char} (h : NoDigit text) :
    scanDigits (ds.text ++ text) = .ok (ds.text, text) := by
  obtain ⟨hfirst, hmore⟩ := ds.isDigit
  obtain ⟨htake, hdrop⟩ := span_digits hmore h
  simp [Digits.text, scanDigits, hfirst, htake, hdrop]

/-- The digits in front of the point: a zero stands alone. -/
theorem scanWhole_text (ds : Digits) (hzero : ds.first = '0' → ds.more = []) {text : List Char}
    (h : NoDigit text) : scanWhole (ds.text ++ text) = .ok (ds.text, text) := by
  obtain ⟨hfirst, hmore⟩ := ds.isDigit
  obtain ⟨htake, hdrop⟩ := span_digits hmore h
  by_cases h0 : ds.first = '0'
  · cases text with
    | nil => simp [Digits.text, scanWhole, h0, hzero h0]
    | cons c rest => simp [Digits.text, scanWhole, h0, hzero h0, h c rfl]
  · simp [Digits.text, scanWhole, h0, hfirst, htake, hdrop]

namespace WrittenNumeral

def numeral (x : WrittenNumeral) : Numeral where
  negative := x.negative
  whole := x.whole.text
  fraction := x.fraction.map Digits.text
  exponent := x.exponent.map fun e => (e.sign matches .minus, e.digits.text)

variable (x : WrittenNumeral) {text : List Char}

theorem noDigit_exponentText (h : EndsNumeral text) : NoDigit (x.exponentText ++ text) := by
  unfold exponentText
  cases x.exponent with
  | none => exact h.noDigit
  | some e =>
    refine noDigit_cons ?_ _
    cases e.capital <;> decide

theorem noDigit_fractionText (h : EndsNumeral text) :
    NoDigit (x.fractionText ++ (x.exponentText ++ text)) := by
  unfold fractionText
  cases x.fraction with
  | none => exact x.noDigit_exponentText h
  | some ds => exact noDigit_cons (by decide) _

/-- Behind the whole part there comes no point, unless it opens a fraction. -/
theorem no_point_exponentText (h : EndsNumeral text) :
    ∀ c ∈ (x.exponentText ++ text).head?, c ≠ '.' := by
  unfold exponentText
  cases x.exponent with
  | none =>
    rintro c hc rfl
    exact absurd (h '.' hc) (by decide)
  | some e =>
    intro c hc
    obtain rfl := Option.some.inj hc
    cases e.capital <;> decide

theorem scanFraction_text (h : EndsNumeral text) :
    scanFraction (x.fractionText ++ (x.exponentText ++ text)) =
      .ok (x.fraction.map Digits.text, x.exponentText ++ text) := by
  unfold fractionText
  cases x.fraction with
  | none =>
    have hpoint := x.no_point_exponentText h
    show scanFraction (x.exponentText ++ text) = _
    unfold scanFraction
    split
    next rest heq => exact absurd rfl (hpoint '.' (by rw [heq]; rfl))
    next => rfl
  | some ds =>
    rw [List.cons_append, scanFraction, scanDigits_text ds (x.noDigit_exponentText h)]
    rfl

/-- A sign is told from the digits behind it. -/
theorem scanSign_text (sign : ExponentSign) (ds : Digits) :
    scanSign (sign.text ++ (ds.text ++ text)) = (sign matches .minus, ds.text ++ text) := by
  cases sign with
  | plus => rfl
  | minus => rfl
  | unwritten =>
    -- a digit is neither of the signs
    have hdigit := ds.isDigit.1
    show scanSign (ds.first :: (ds.more ++ text)) = _
    unfold scanSign
    split
    next heq =>
      rw [(List.cons.inj heq).1] at hdigit
      cases hdigit
    next heq =>
      rw [(List.cons.inj heq).1] at hdigit
      cases hdigit
    next => rfl

theorem scanExponent_text (h : EndsNumeral text) :
    scanExponent (x.exponentText ++ text) =
      .ok (x.exponent.map fun e => (e.sign matches .minus, e.digits.text), text) := by
  unfold exponentText
  cases x.exponent with
  | none =>
    cases text with
    | nil => rfl
    | cons c rest =>
      have hc := h c rfl
      simp only [continuesNumeral, Bool.or_eq_false_iff, beq_eq_false_iff_ne] at hc
      simp [scanExponent, hc.1.2, hc.2]
  | some e =>
    have hletter : (if e.capital then 'E' else 'e') = 'e' ∨
        (if e.capital then 'E' else 'e') = 'E' := by
      cases e.capital <;> simp
    show scanExponent ((if e.capital then 'E' else 'e') ::
      ((e.sign.text ++ e.digits.text) ++ text)) = _
    rw [scanExponent, if_pos hletter, List.append_assoc]
    simp only [scanSign_text, scanDigits_text e.digits h.noDigit]
    rfl

theorem scanUnsigned_text (negative : Bool) (h : EndsNumeral text) :
    scanUnsigned negative (x.whole.text ++ (x.fractionText ++ (x.exponentText ++ text))) =
      .ok ({ x.numeral with negative := negative }, text) := by
  have hwhole := scanWhole_text x.whole x.noLeadingZero (x.noDigit_fractionText h)
  simp only [scanUnsigned, bind, Except.bind, hwhole, scanFraction_text x h, scanExponent_text x h]
  rfl

end WrittenNumeral

/-- A written numeral is read to its end. -/
theorem scanNumeral_text (x : WrittenNumeral) {text : List Char} (h : EndsNumeral text) :
    scanNumeral (x.text ++ text) = .ok (x.numeral, text) := by
  have hunsigned := fun negative => x.scanUnsigned_text negative h
  rw [WrittenNumeral.text, List.append_assoc, List.append_assoc, List.append_assoc]
  cases hsign : x.negative with
  | true =>
    show scanUnsigned true (x.whole.text ++ (x.fractionText ++ (x.exponentText ++ text))) = _
    rw [hunsigned, ← hsign]
    rfl
  | false =>
    -- without a sign the numeral begins with a digit
    have hdigit := x.whole.isDigit.1
    show scanNumeral (x.whole.first ::
      (x.whole.more ++ (x.fractionText ++ (x.exponentText ++ text)))) = _
    unfold scanNumeral
    split
    next heq =>
      rw [(List.cons.inj heq).1] at hdigit
      cases hdigit
    next =>
      have hfalse := hunsigned false
      rw [← hsign] at hfalse ⊢
      exact hfalse

end NameResolution.Json
