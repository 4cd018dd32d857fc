import NameResolution.Proofs.Json.Grammar
import NameResolution.Proofs.Json.Place

/-!
# Reading quoted texts

A quoted text is followed stroke by stroke. Between two strokes the reader is either
free or has the first half of a pair behind it; a stroke takes it to such a mode
again or is at fault (`scanQuoted_stroke`). What is read depends on the strokes, and
not on what stands behind the closing quote (`onlyRead_quoted`); and whatever is
quoted can be passed over (`scanQuoted_skipped`).
-/

namespace NameResolution.Json

/-- What was read, without what stands behind it and without places. -/
def onlyRead {α : Type} (x : Except Fault (α × List Char)) : Except Fault α :=
  bared (x.map Prod.fst)

theorem onlyRead_withChar (c : Char) (x : Except Fault (List Char × List Char)) :
    onlyRead (withChar c x) = (onlyRead x).map (c :: ·) := by
  cases x <;> rfl

/-- The modes that a reader is in between two strokes. -/
def QuotedMode.IsBetween : QuotedMode → Prop
  | plain => True
  | pair _ => True
  | _ => False

theorem hexDigit?_of_isHex {c : Char} (h : isHex c = true) : ∃ d, hexDigit? c = some d := by
  unfold isHex at h
  unfold hexDigit?
  split
  next => exact ⟨_, rfl⟩
  next hdigit =>
    simp only [hdigit, Bool.false_or, Bool.or_eq_true, Bool.and_eq_true, decide_eq_true_eq] at h
    split
    next => exact ⟨_, rfl⟩
    next hsmall => exact ⟨_, if_pos (h.resolve_left hsmall)⟩

theorem escaped?_of_mem {c : Char} (h : c ∈ ['"', '\\', '/', 'b', 'f', 'n', 'r', 't']) :
    c ≠ 'u' ∧ ∃ e, escaped? c = some e := by
  simp only [List.mem_cons, List.not_mem_nil, or_false] at h
  rcases h with rfl | rfl | rfl | rfl | rfl | rfl | rfl | rfl <;> exact ⟨by decide, _, rfl⟩

/-- The value of a hexadecimal digit. -/
def hexValue (c : Char) : Nat := (hexDigit? c).getD 0

/-- The 16-bit unit that four hexadecimal digits stand for. -/
def Stroke.unit? : Stroke → Option Nat
  | code a b c d _ => some (((hexValue a * 16 + hexValue b) * 16 + hexValue c) * 16 + hexValue d)
  | _ => none

theorem hexDigit?_eq_hexValue {c : Char} (h : isHex c = true) :
    hexDigit? c = some (hexValue c) := by
  obtain ⟨d, hd⟩ := hexDigit?_of_isHex h
  rw [hexValue, hd]
  rfl

/-- Four hexadecimal digits stand for a unit, and what becomes of it depends on what stands in
front of them. -/
theorem scanQuoted_code {s : Stroke} {unit : Nat} (hs : s.unit? = some unit) (text : List Char) :
    scanQuoted .skipped .plain (s.text ++ text) =
        withChar (Char.ofNat unit) (scanQuoted .skipped .plain text) ∧
      scanQuoted .kept .plain (s.text ++ text) =
        (if isLead unit then scanQuoted .kept (.pair unit) text
         else if isTrail unit then .error (.malformed text)
         else withChar (Char.ofNat unit) (scanQuoted .kept .plain text)) ∧
      ∀ lead, scanQuoted .kept (.pair lead) (s.text ++ text) =
        if isTrail unit then withChar (pairChar lead unit) (scanQuoted .kept .plain text)
        else .error (.malformed text) := by
  cases s with
  | code a b c d hex =>
    obtain ⟨ha, hb, hc, hd⟩ := hex
    obtain rfl := Option.some.inj hs
    -- the digits are read for one unit, whatever mode they are read in
    simp [Stroke.text, scanQuoted, hexDigit?_eq_hexValue ha, hexDigit?_eq_hexValue hb,
      hexDigit?_eq_hexValue hc, hexDigit?_eq_hexValue hd]
  | _ => cases hs

/-- A stroke is at fault, whatever comes behind it. -/
def Stroke.Fails (s : Stroke) (m : QuotedMode) : Prop :=
  ∃ f, ∀ text, onlyRead (scanQuoted .kept m (s.text ++ text)) = .error f

/-- A stroke leads to a mode between strokes again, whatever comes behind it. -/
def Stroke.Leads (s : Stroke) (m : QuotedMode) : Prop :=
  ∃ m' : QuotedMode, m'.IsBetween ∧ ∃ cs : List Char, ∀ text,
    onlyRead (scanQuoted .kept m (s.text ++ text)) =
      (onlyRead (scanQuoted .kept m' text)).map (cs ++ ·)

theorem Stroke.leads_of_withChar {s : Stroke} {m : QuotedMode} {c : Char}
    (h : ∀ text, scanQuoted .kept m (s.text ++ text) = withChar c (scanQuoted .kept .plain text)) :
    s.Leads m :=
  ⟨.plain, trivial, [c], fun text => by rw [h, onlyRead_withChar]; rfl⟩

theorem Stroke.fails_of_malformed {s : Stroke} {m : QuotedMode}
    (h : ∀ text, ∃ behind, scanQuoted .kept m (s.text ++ text) = .error (.malformed behind)) :
    s.Fails m :=
  ⟨.malformed [], fun text => by
    obtain ⟨behind, hbehind⟩ := h text
    rw [hbehind]
    rfl⟩

/-- A stroke is at fault, or leads on. -/
theorem scanQuoted_stroke (s : Stroke) {m : QuotedMode} (hm : m.IsBetween) :
    s.Fails m ∨ s.Leads m := by
  cases s with
  | plain c fits =>
    obtain ⟨hlow, hquote, hslash⟩ := fits
    cases m with
    | plain =>
      refine .inr (Stroke.leads_of_withChar (c := c) fun text => ?_)
      simp [Stroke.text, scanQuoted, hquote, hslash, Nat.not_lt.mpr hlow]
    | pair lead =>
      refine .inl (Stroke.fails_of_malformed fun text => ⟨text, ?_⟩)
      simp [Stroke.text, scanQuoted, hslash]
    | _ => exact hm.elim
  | letter c known =>
    obtain ⟨hu, e, he⟩ := escaped?_of_mem known
    cases m with
    | plain =>
      refine .inr (Stroke.leads_of_withChar (c := e) fun text => ?_)
      simp [Stroke.text, scanQuoted, hu, he]
    | pair lead =>
      refine .inl (Stroke.fails_of_malformed fun text => ⟨text, ?_⟩)
      simp [Stroke.text, scanQuoted, hu]
    | _ => exact hm.elim
  | code a b c d hex =>
    obtain ⟨unit, hunit⟩ : ∃ unit, (Stroke.code a b c d hex).unit? = some unit := ⟨_, rfl⟩
    have hcode := scanQuoted_code hunit
    cases m with
    | plain =>
      -- a first half waits for the second, a second half alone is at fault
      by_cases hlead : isLead unit = true
      · refine .inr ⟨.pair unit, trivial, [], fun text => ?_⟩
        rw [(hcode text).2.1, if_pos hlead]
        cases onlyRead (scanQuoted .kept (.pair unit) text) <;> rfl
      · by_cases htrail : isTrail unit = true
        · refine .inl (Stroke.fails_of_malformed fun text => ⟨text, ?_⟩)
          rw [(hcode text).2.1, if_neg hlead, if_pos htrail]
        · refine .inr (Stroke.leads_of_withChar (c := Char.ofNat unit) fun text => ?_)
          rw [(hcode text).2.1, if_neg hlead, if_neg htrail]
    | pair lead =>
      by_cases htrail : isTrail unit = true
      · refine .inr (Stroke.leads_of_withChar (c := pairChar lead unit) fun text => ?_)
        rw [(hcode text).2.2 lead, if_pos htrail]
      · refine .inl (Stroke.fails_of_malformed fun text => ⟨text, ?_⟩)
        rw [(hcode text).2.2 lead, if_neg htrail]
    | _ => exact hm.elim

/-- What is read of a quoted text depends on its strokes alone. -/
theorem onlyRead_quoted : ∀ (strokes : List Stroke) {m : QuotedMode}, m.IsBetween →
    ∀ rest rest' : List Char,
      onlyRead (scanQuoted .kept m (strokes.flatMap Stroke.text ++ '"' :: rest)) =
        onlyRead (scanQuoted .kept m (strokes.flatMap Stroke.text ++ '"' :: rest'))
  | [], m, hm, rest, rest' => by
    cases m with
    | plain => rfl
    | pair lead => rfl
    | _ => exact hm.elim
  | s :: strokes, m, hm, rest, rest' => by
    rw [List.flatMap_cons, List.append_assoc, List.append_assoc]
    -- a fault is final; otherwise both readers are in the same mode behind the stroke
    rcases scanQuoted_stroke s hm with ⟨f, hfails⟩ | ⟨m', hm', cs, hleads⟩
    · rw [hfails, hfails]
    · rw [hleads, hleads, onlyRead_quoted strokes hm' rest rest']

theorem scanQuoted_skipped : ∀ (strokes : List Stroke) (rest : List Char),
    ∃ cs, scanQuoted .skipped .plain (strokes.flatMap Stroke.text ++ '"' :: rest) = .ok (cs, rest)
  | [], rest => ⟨[], rfl⟩
  | s :: strokes, rest => by
    obtain ⟨cs, hcs⟩ := scanQuoted_skipped strokes rest
    rw [List.flatMap_cons, List.append_assoc]
    cases s with
    | plain c fits =>
      obtain ⟨hlow, hquote, hslash⟩ := fits
      refine ⟨c :: cs, ?_⟩
      simp [Stroke.text, scanQuoted, hquote, hslash, Nat.not_lt.mpr hlow, hcs, withChar]
    | letter c known =>
      obtain ⟨hu, e, he⟩ := escaped?_of_mem known
      refine ⟨e :: cs, ?_⟩
      simp [Stroke.text, scanQuoted, hu, he, hcs, withChar]
    | code a b c d hex =>
      obtain ⟨unit, hunit⟩ : ∃ unit, (Stroke.code a b c d hex).unit? = some unit := ⟨_, rfl⟩
      refine ⟨Char.ofNat unit :: cs, ?_⟩
      rw [(scanQuoted_code hunit _).1, hcs, withChar]

end NameResolution.Json
