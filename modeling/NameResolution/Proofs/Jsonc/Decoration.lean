import NameResolution.Jsonc
import NameResolution.Proofs.Json.Grammar

/-!
# Documents with decorations

A document may be decorated: comments may stand in its gaps, and a comma in front of
a closing bracket that has something in front of it. Stripping a decorated document
leaves a plain spelling of the same pieces (`IsDecorated.isPlain_strip`).

Of a gap, stripping leaves blanks only, and looking for the next closing bracket
passes over the gap; so a comma is dropped exactly when the piece behind it is a
closing bracket. What that does to a list of pieces is `settle`, and in an orderly
list it takes out just the commas that were put in.
-/

namespace NameResolution.Jsonc

open Json (Piece Spelled Stroke Blank Orderly Written isGap ne_of_test)

/-- A gap with comments in it: a line comment goes up to a newline, a block comment up to the first
mark that closes it. -/
inductive Gap : List Char → Prop where
  | nil : Gap []
  | blank {g : List Char} (c : Char) (h : isGap c = true) (more : Gap g) : Gap (c :: g)
  | line {g : List Char} (body : List Char) (h : '\n' ∉ body) (more : Gap g) :
    Gap ('/' :: '/' :: (body ++ '\n' :: g))
  | block {g : List Char} (body : List Char) (h : ¬ ['*', '/'] <:+: body) (more : Gap g) :
    Gap ('/' :: '*' :: (body ++ '*' :: '/' :: g))

/-- The gap at the end of a document: a line comment may go up to the end of the text. -/
inductive LastGap : List Char → Prop where
  | gap {g : List Char} (h : Gap g) : LastGap g
  | line {g : List Char} (h : Gap g) (body : List Char) (hbody : '\n' ∉ body) :
    LastGap (g ++ '/' :: '/' :: body)

/-- The second list of pieces is the first with commas put in, one before a closing bracket that is
not right behind an opening one. -/
inductive TrailingCommas : List Piece → List Piece → Prop where
  | nil : TrailingCommas [] []
  | keep (p : Piece) {ps qs : List Piece} (more : TrailingCommas ps qs) :
    TrailingCommas (p :: ps) (p :: qs)
  | comma {p close : Piece} {ps qs : List Piece} (hp : p.isOpening = false)
    (hclose : close.isClosing = true) (more : TrailingCommas (close :: ps) qs) :
    TrailingCommas (p :: close :: ps) (p :: .mark .comma :: qs)

/-- The text is a decorated spelling of the document. -/
def IsDecorated (doc : Written) (text : List Char) : Prop :=
  ∃ qs, TrailingCommas doc.pieces qs ∧ Spelled Gap LastGap qs text

/-! ## Gaps -/

/-- Stripping turns the gap into blanks, and a gap does not hide a closing bracket. -/
structure Vanishes (g : List Char) : Prop where
  strip : ∃ b, Blank b ∧ ∀ rest, stripFrom .plain (g ++ rest) = b ++ stripFrom .plain rest
  closes : ∀ rest, closesNext .plain (g ++ rest) = closesNext .plain rest

theorem strip_lineComment {body : List Char} (h : '\n' ∉ body) (rest : List Char) :
    stripFrom .lineComment (body ++ '\n' :: rest) = '\n' :: stripFrom .plain rest ∧
      closesNext .lineComment (body ++ '\n' :: rest) = closesNext .plain rest := by
  induction body with
  | nil => exact ⟨rfl, rfl⟩
  | cons c body ih =>
    have hc : c ≠ '\n' := fun he => h (he ▸ List.mem_cons_self)
    have hbody := ih fun hmem => h (List.mem_cons_of_mem _ hmem)
    simpa [stripFrom, closesNext, hc] using hbody

theorem strip_lineComment_end {body : List Char} (h : '\n' ∉ body) :
    stripFrom .lineComment body = [] ∧ closesNext .lineComment body = false := by
  induction body with
  | nil => exact ⟨rfl, rfl⟩
  | cons c body ih =>
    have hc : c ≠ '\n' := fun he => h (he ▸ List.mem_cons_self)
    have hbody := ih fun hmem => h (List.mem_cons_of_mem _ hmem)
    simpa [stripFrom, closesNext, hc] using hbody

/-- Inside a block comment a character counts only if it is a newline. -/
theorem blockComment_cons {c : Char} {text : List Char}
    (h : ∀ rest, c = '*' → text = '/' :: rest → False) :
    stripFrom .blockComment (c :: text) =
        [c].filter (· = '\n') ++ stripFrom .blockComment text ∧
      closesNext .blockComment (c :: text) = closesNext .blockComment text := by
  constructor
  · rw [stripFrom]
    · by_cases hc : c = '\n' <;> simp [hc]
    · exact h
  · rw [closesNext]
    exact h

/-- Of a block comment the newlines are left. -/
theorem strip_blockComment : ∀ {body : List Char}, ¬ ['*', '/'] <:+: body → ∀ rest : List Char,
    stripFrom .blockComment (body ++ '*' :: '/' :: rest) =
        body.filter (· = '\n') ++ stripFrom .plain rest ∧
      closesNext .blockComment (body ++ '*' :: '/' :: rest) = closesNext .plain rest
  | [], _, rest => ⟨rfl, rfl⟩
  | c :: body, h, rest => by
    have hbody : ¬ ['*', '/'] <:+: body :=
      fun hin => h (hin.trans (List.suffix_cons c body).isInfix)
    obtain ⟨hstrip, hcloses⟩ := strip_blockComment hbody rest
    -- the mark that closes the comment does not begin inside the body
    have hinside : ∀ tail, c = '*' → body ++ '*' :: '/' :: rest = '/' :: tail → False := by
      rintro tail rfl htail
      match body with
      | [] => exact absurd (List.cons.inj htail).1 (by decide)
      | d :: body =>
        obtain rfl : d = '/' := (List.cons.inj htail).1
        exact h ⟨[], body, rfl⟩
    obtain ⟨hstrip', hcloses'⟩ := blockComment_cons hinside
    rw [List.cons_append, hstrip', hcloses', hstrip, hcloses]
    refine ⟨?_, rfl⟩
    rw [← List.append_assoc, ← List.filter_append]
    rfl

theorem isBlank_of_isGap {c : Char} (h : isGap c = true) : Text.isBlank c = true := by
  simp only [isGap, Bool.or_eq_true, decide_eq_true_eq] at h
  rcases h with ((rfl | rfl) | rfl) | rfl <;> decide

/-- Outside of quotes and comments, only a slash, a quote and a comma call for attention. -/
theorem stripFrom_plain_cons {c : Char} (hslash : c ≠ '/') (hquote : c ≠ '"') (hcomma : c ≠ ',')
    (rest : List Char) : stripFrom .plain (c :: rest) = c :: stripFrom .plain rest := by
  rw [stripFrom]
  · simp [hquote, hcomma]
  · rintro _ rfl
    exact absurd rfl hslash
  · rintro _ rfl
    exact absurd rfl hslash

theorem closesNext_plain_cons {c : Char} (hslash : c ≠ '/') (rest : List Char) :
    closesNext .plain (c :: rest) =
      if Text.isBlank c then closesNext .plain rest else decide (c = '}' ∨ c = ']') := by
  rw [closesNext]
  all_goals simp [hslash]

theorem Vanishes.append {g g' : List Char} (h : Vanishes g) (h' : Vanishes g') :
    Vanishes (g ++ g') := by
  obtain ⟨⟨b, hb, hstrip⟩, hcloses⟩ := h
  obtain ⟨⟨b', hb', hstrip'⟩, hcloses'⟩ := h'
  refine ⟨⟨b ++ b', fun c hc => ?_, fun rest => ?_⟩, fun rest => ?_⟩
  · exact (List.mem_append.mp hc).elim (hb c) (hb' c)
  · rw [List.append_assoc, hstrip, hstrip', List.append_assoc]
  · rw [List.append_assoc, hcloses, hcloses']

theorem vanishes_blank {c : Char} (h : isGap c = true) : Vanishes [c] := by
  have hslash : c ≠ '/' := ne_of_test h rfl
  have hquote : c ≠ '"' := ne_of_test h rfl
  have hcomma : c ≠ ',' := ne_of_test h rfl
  refine ⟨⟨[c], ?_, fun rest => stripFrom_plain_cons hslash hquote hcomma rest⟩, fun rest => ?_⟩
  · intro d hd
    rwa [List.mem_singleton.mp hd]
  · rw [List.singleton_append, closesNext_plain_cons hslash, if_pos (isBlank_of_isGap h)]

theorem vanishes_line {body : List Char} (h : '\n' ∉ body) :
    Vanishes ('/' :: '/' :: (body ++ ['\n'])) := by
  have hline := fun rest => strip_lineComment h rest
  refine ⟨⟨['\n'], ?_, fun rest => ?_⟩, fun rest => ?_⟩
  · intro d hd
    rw [List.mem_singleton.mp hd]
    rfl
  · rw [List.cons_append, List.cons_append, List.append_assoc, stripFrom]
    exact (hline rest).1
  · rw [List.cons_append, List.cons_append, List.append_assoc, closesNext]
    · exact (hline rest).2
    · simp
    · simp

theorem vanishes_block {body : List Char} (h : ¬ ['*', '/'] <:+: body) :
    Vanishes ('/' :: '*' :: (body ++ ['*', '/'])) := by
  have hblock := fun rest => strip_blockComment h rest
  -- the newlines of the comment are what is left of it
  refine ⟨⟨body.filter (· = '\n'), ?_, fun rest => ?_⟩, fun rest => ?_⟩
  · intro d hd
    rw [of_decide_eq_true (List.mem_filter.mp hd).2]
    rfl
  · rw [List.cons_append, List.cons_append, List.append_assoc, stripFrom]
    exact (hblock rest).1
  · rw [List.cons_append, List.cons_append, List.append_assoc, closesNext]
    · exact (hblock rest).2
    · simp
    · simp

/-- Every gap vanishes, since its parts do. -/
theorem Gap.vanishes {g : List Char} (h : Gap g) : Vanishes g := by
  induction h with
  | nil => exact ⟨⟨[], by simp [Blank], fun _ => rfl⟩, fun _ => rfl⟩
  | blank c hc more ih => exact (vanishes_blank hc).append ih
  | line body hbody more ih =>
    have hall := (vanishes_line hbody).append ih
    rwa [List.cons_append, List.cons_append, List.append_assoc] at hall
  | block body hbody more ih =>
    have hall := (vanishes_block hbody).append ih
    rwa [List.cons_append, List.cons_append, List.append_assoc] at hall

/-- The gap at the end of a document leaves blanks, and nothing closes behind it. -/
theorem LastGap.strip {g : List Char} (h : LastGap g) :
    Blank (stripFrom .plain g) ∧ closesNext .plain g = false := by
  cases h with
  | gap h =>
    obtain ⟨⟨b, hb, hstrip⟩, hcloses⟩ := h.vanishes
    have hb' := hstrip []
    have hc' := hcloses []
    rw [List.append_nil] at hb' hc'
    rw [hb', hc', stripFrom, List.append_nil]
    exact ⟨hb, rfl⟩
  | @line g h body hbody =>
    obtain ⟨⟨b, hb, hstrip⟩, hcloses⟩ := h.vanishes
    obtain ⟨hbody', hclose'⟩ := strip_lineComment_end hbody
    rw [hstrip, hcloses, stripFrom, closesNext, hbody', hclose', List.append_nil]
    · exact ⟨hb, rfl⟩
    · simp
    · simp

/-! ## Pieces -/

/-- Inside quotes, only a quote and a backslash call for attention. -/
theorem stripFrom_quoted_cons {c : Char} (hquote : c ≠ '"') (hslash : c ≠ '\\')
    (rest : List Char) : stripFrom .quoted (c :: rest) = c :: stripFrom .quoted rest := by
  rw [stripFrom]
  · rw [if_neg hquote]
  · rintro _ _ rfl
    exact absurd rfl hslash

/-- Stripping keeps a stroke, and stays inside the quotes. -/
theorem strip_stroke (s : Stroke) (rest : List Char) :
    stripFrom .quoted (s.text ++ rest) = s.text ++ stripFrom .quoted rest := by
  cases s with
  | plain c fits => exact stripFrom_quoted_cons fits.2.1 fits.2.2 rest
  | letter c known => rfl
  | code a b c d hex =>
    have hdigit : ∀ x : Char, Json.isHex x = true → ∀ text,
        stripFrom .quoted (x :: text) = x :: stripFrom .quoted text := fun x hx =>
      stripFrom_quoted_cons (ne_of_test hx (d := '"') rfl) (ne_of_test hx (d := '\\') rfl)
    obtain ⟨ha, hb, hc, hd⟩ := hex
    show '\\' :: 'u' :: stripFrom .quoted (a :: b :: c :: d :: rest) = _
    rw [hdigit a ha, hdigit b hb, hdigit c hc, hdigit d hd]
    rfl

theorem strip_strokes : ∀ (strokes : List Stroke) (rest : List Char),
    stripFrom .quoted (strokes.flatMap Stroke.text ++ '"' :: rest) =
      strokes.flatMap Stroke.text ++ '"' :: stripFrom .plain rest
  | [], rest => rfl
  | s :: strokes, rest => by
    rw [List.flatMap_cons, List.append_assoc, strip_stroke, strip_strokes, List.append_assoc]

/-- A character that means nothing to stripping. -/
def IsOrdinary (c : Char) : Prop := c ≠ '/' ∧ c ≠ '"' ∧ c ≠ ','

theorem strip_ordinary : ∀ {text : List Char}, (∀ c ∈ text, IsOrdinary c) → ∀ rest : List Char,
    stripFrom .plain (text ++ rest) = text ++ stripFrom .plain rest
  | [], _, rest => rfl
  | c :: text, h, rest => by
    obtain ⟨hslash, hquote, hcomma⟩ := h c List.mem_cons_self
    rw [List.cons_append, stripFrom_plain_cons hslash hquote hcomma,
      strip_ordinary (fun d hd => h d (List.mem_cons_of_mem _ hd)), List.cons_append]

theorem isBlank_of_isDigit {c : Char} (h : c.isDigit = true) : Text.isBlank c = false := by
  simp only [Char.isDigit, Bool.and_eq_true, decide_eq_true_eq] at h
  have hlow : 48 ≤ c.toNat := h.1
  have hhigh : c.toNat ≤ 57 := h.2
  simp [Text.isBlank, Text.inRanges, Text.blankRanges]
  omega

theorem isOrdinary_numeral {x : Json.WrittenNumeral} {c : Char} (h : c ∈ x.text) :
    IsOrdinary c := by
  rcases Json.WrittenNumeral.isDigit_or_of_mem h with h | h
  · exact ⟨ne_of_test h rfl, ne_of_test h rfl, ne_of_test h rfl⟩
  · simp only [List.mem_cons, List.not_mem_nil, or_false] at h
    rcases h with rfl | rfl | rfl | rfl | rfl <;> simp [IsOrdinary]

theorem isOrdinary_word {w : Json.Word} {c : Char} (h : c ∈ w.text) : IsOrdinary c := by
  cases w <;>
  · simp only [Json.Word.text, List.mem_cons, List.not_mem_nil, or_false] at h
    rcases h with rfl | rfl | rfl | rfl | rfl <;> simp [IsOrdinary]

theorem strip_piece {p : Piece} (hp : p ≠ .mark .comma) (rest : List Char) :
    stripFrom .plain (p.text ++ rest) = p.text ++ stripFrom .plain rest := by
  cases p with
  | word w => exact strip_ordinary (fun _ => isOrdinary_word) rest
  | numeral x => exact strip_ordinary (fun _ => isOrdinary_numeral) rest
  | mark m =>
    cases m with
    | comma => exact absurd rfl hp
    | _ => exact stripFrom_plain_cons (by decide) (by decide) (by decide) rest
  | quoted strokes =>
    show '"' :: stripFrom .quoted ((strokes.flatMap Stroke.text ++ ['"']) ++ rest) = _
    rw [List.append_assoc, List.singleton_append, strip_strokes]
    simp [Piece.text]

theorem closesNext_piece (p : Piece) (rest : List Char) :
    closesNext .plain (p.text ++ rest) = p.isClosing := by
  cases p with
  | mark m => cases m <;> exact closesNext_plain_cons (by decide) rest
  | word w => cases w <;> exact closesNext_plain_cons (by decide) _
  | quoted strokes => exact closesNext_plain_cons (by decide) _
  | numeral x =>
    obtain ⟨c, tail, htext, hc⟩ := x.text_eq_cons
    show closesNext .plain (x.text ++ rest) = false
    have hslash : c ≠ '/' := (isOrdinary_numeral (htext ▸ List.mem_cons_self)).1
    rw [htext, List.cons_append, closesNext_plain_cons hslash]
    rcases hc with rfl | hc
    · rfl
    · have hbrace : c ≠ '}' := ne_of_test hc rfl
      have hbracket : c ≠ ']' := ne_of_test hc rfl
      simp [isBlank_of_isDigit hc, hbrace, hbracket]

/-! ## Commas -/

def closesFirst : List Piece → Bool
  | [] => false
  | p :: _ => p.isClosing

/-- The pieces without the commas that a closing bracket follows. -/
def settle : List Piece → List Piece
  | [] => []
  | .mark .comma :: ps => if closesFirst ps then settle ps else .mark .comma :: settle ps
  | p :: ps => p :: settle ps

theorem settle_cons {p : Piece} (hp : p ≠ .mark .comma) (ps : List Piece) :
    settle (p :: ps) = p :: settle ps := by
  rw [settle]
  exact hp

theorem Spelled.blank_append {b text : List Char} {ps : List Piece} (hb : Blank b)
    (h : Spelled Blank Blank ps text) : Spelled Blank Blank ps (b ++ text) := by
  have happend : ∀ {g : List Char}, Blank g → Blank (b ++ g) := fun hg c hc =>
    (List.mem_append.mp hc).elim (hb c) (hg c)
  cases h with
  | nil hg => exact .nil (happend hg)
  | cons hg more =>
    rw [← List.append_assoc, ← List.append_assoc]
    exact .cons (happend hg) more

/-- Stripping a decorated text leaves a plain spelling of the pieces without the commas that a
closing bracket follows; and a closing bracket comes next where the pieces begin with one. -/
theorem Spelled.strip {ps : List Piece} {text : List Char} (h : Spelled Gap LastGap ps text) :
    Spelled Blank Blank (settle ps) (stripFrom .plain text) ∧
      closesNext .plain text = closesFirst ps := by
  induction h with
  | nil h =>
    obtain ⟨hblank, hcloses⟩ := h.strip
    exact ⟨.nil hblank, hcloses⟩
  | @cons g p ps rest h more ih =>
    obtain ⟨hrest, hclose⟩ := ih
    obtain ⟨⟨b, hb, hstrip⟩, hcloses⟩ := h.vanishes
    rw [List.append_assoc, hstrip, hcloses, closesNext_piece]
    refine ⟨?_, rfl⟩
    -- a comma goes exactly when a closing bracket follows, which looking ahead tells
    by_cases hp : p = .mark .comma
    · subst hp
      have hcomma : stripFrom .plain ((Piece.mark .comma).text ++ rest) =
          if closesFirst ps then stripFrom .plain rest else ',' :: stripFrom .plain rest := by
        show stripFrom .plain (',' :: rest) = _
        rw [stripFrom, hclose]
        all_goals simp
      rw [hcomma, settle]
      split
      next => exact Spelled.blank_append hb hrest
      next =>
        rw [List.append_cons]
        exact .cons hb hrest
    · rw [strip_piece hp, settle_cons hp, ← List.append_assoc]
      exact .cons hb hrest

/-- Commas are put in behind the first piece. -/
theorem TrailingCommas.closesFirst_eq {ps qs : List Piece} (h : TrailingCommas ps qs) :
    closesFirst qs = closesFirst ps := by
  cases h <;> rfl

theorem closesFirst_of_orderly {ps : List Piece} (h : Orderly (.mark .comma :: ps)) :
    closesFirst ps = false := by
  cases ps with
  | nil => rfl
  | cons p ps =>
    have hp := (Json.orderly_cons.mp h).1 p rfl
    exact Bool.not_eq_true' _ ▸ hp

/-- Without the commas that a closing bracket follows, the pieces are what they were before commas
were put in. -/
theorem TrailingCommas.settle_eq {ps qs : List Piece} (h : TrailingCommas ps qs)
    (hps : Orderly ps) : settle qs = ps := by
  induction h with
  | nil => rfl
  | @keep p ps qs more ih =>
    have hrest := ih (Json.orderly_cons.mp hps).2
    -- a comma of the document stays: no closing bracket follows it
    by_cases hp : p = .mark .comma
    · subst hp
      rw [settle, more.closesFirst_eq, closesFirst_of_orderly hps, hrest]
      rfl
    · rw [settle_cons hp, hrest]
  | @comma p close ps qs hp hclose more ih =>
    obtain ⟨hnext, hrest⟩ := Json.orderly_cons.mp hps
    -- the comma that was put in goes, and the piece in front of it is no comma
    have hne : p ≠ .mark .comma := by
      rintro rfl
      have hfalse := closesFirst_of_orderly hps
      rw [closesFirst, hclose] at hfalse
      cases hfalse
    have hcloses : closesFirst qs = true := more.closesFirst_eq.trans hclose
    rw [settle_cons hne, settle, if_pos hcloses, ih hrest]

/-- Stripping a decorated spelling of a document leaves a plain one. -/
theorem IsDecorated.isPlain_strip {doc : Written} {text : List Char} (h : IsDecorated doc text) :
    doc.IsPlain (strip text) := by
  obtain ⟨qs, hcommas, hspelled⟩ := h
  have hstrip := (Spelled.strip hspelled).1
  rwa [hcommas.settle_eq doc.orderly] at hstrip

theorem isDecorated_of_isPlain {doc : Written} {text : List Char} (h : doc.IsPlain text) :
    IsDecorated doc text := by
  have hcommas : ∀ ps, TrailingCommas ps ps := fun ps => by
    induction ps with
    | nil => exact .nil
    | cons p ps ih => exact .keep p ih
  have hgap : ∀ {g}, Blank g → Gap g := fun {g} hg => by
    induction g with
    | nil => exact .nil
    | cons c g ih =>
      exact .blank c (hg c List.mem_cons_self) (ih fun d hd => hg d (List.mem_cons_of_mem _ hd))
  exact ⟨doc.pieces, hcommas _, Json.Spelled.imp (fun _ => hgap) (fun _ hg => .gap (hgap hg)) h⟩

end NameResolution.Jsonc
