import NameResolution.Proofs.Jsonc.Glyphs

/-!
# Cleaning a document

To clean a document is to replace each comment by a space and to leave out each trailing
comma: one that an element ends in front of and a closing bracket follows. Stripping
does it otherwise. It leaves out each comma that a closing bracket follows, also one
without an element in front of it (`HasLoneComma`); and where it leaves nothing of a
comment, the characters around the comment may come together (`Glues`).

Between stripping and cleaning there is a third text, with a space in place of each
comment, but without the commas that stripping leaves out (`spaceOut`). It is spelled like
the stripped one where nothing is glued (`spelled_spaceOut`), and is the cleaned one where
no comma is lone (`clean_eq_spaceOut`). For both, the glyphs of the document are seen to be
composed of pieces with blanks, comments and commas in between (`Composed`). Such a
composition is also found where cleaning leaves a plain spelling of a document, and then
nothing is glued and no comma is lone (`not_glues_of_isPlain`).
-/

namespace NameResolution.Jsonc

open Json (Piece Mark Spelled Stroke Blank WellPlaced Written isGap ne_of_test)

/-- Does an element end here, comments and blanks aside? This is told from the glyph and from
whether one ended in front of it. -/
def Glyph.ends (ended : Bool) : Glyph → Bool
  | .opener | .comment _ => ended
  | .quoted _ => true
  | .plain c => if Text.isBlank c then ended else c ∉ ['{', '[', ':', ',']

/-- The text with a space in place of each comment, and without each comma that an element ends in
front of and a closing bracket follows. -/
def cleaned (ended : Bool) : List Glyph → List Char
  | [] => []
  | .opener :: gs => ' ' :: cleaned ended gs
  | .comment _ :: gs => cleaned ended gs
  | .quoted c :: gs => c :: cleaned true gs
  | .plain c :: gs =>
    if c = ',' ∧ ended ∧ closes gs then cleaned false gs
    else c :: cleaned (Glyph.ends ended (.plain c)) gs

/-- A document with a space in place of each comment, and without its trailing commas. -/
def clean (document : List Char) : List Char := cleaned false (glyphs document)

/-- The text with a space in place of each comment, and without each comma that a closing bracket
follows. -/
def spacedOut : List Glyph → List Char
  | [] => []
  | .opener :: gs => ' ' :: spacedOut gs
  | .comment _ :: gs => spacedOut gs
  | .quoted c :: gs => c :: spacedOut gs
  | .plain c :: gs => if c = ',' ∧ closes gs then spacedOut gs else c :: spacedOut gs

/-- A document with a space in place of each comment, and without each comma that a closing bracket
follows. -/
def spaceOut (document : List Char) : List Char := spacedOut (glyphs document)

/-- Could the character stand in a word or a numeral? -/
def isWordChar (c : Char) : Bool := c.isAlphanum || c = '+' || c = '-' || c = '.'

/-- Does stripping leave nothing of the glyph, since it is in a comment? -/
def Glyph.vanishes : Glyph → Bool
  | .opener => true
  | .comment c => c ≠ '\n'
  | _ => false

/-- Somewhere comments without a newline stand right between two characters of words or
numerals. -/
def Glues (gs : List Glyph) : Prop :=
  ∃ before c between d behind, gs = before ++ .plain c :: (between ++ .plain d :: behind) ∧
    between ≠ [] ∧ (∀ g ∈ between, Glyph.vanishes g = true) ∧
    isWordChar c = true ∧ isWordChar d = true

/-- Somewhere a comma that a closing bracket follows has no element in front of it. -/
def HasLoneComma (ended : Bool) (gs : List Glyph) : Prop :=
  ∃ before behind, gs = before ++ .plain ',' :: behind ∧ closes behind = true ∧
    before.foldl Glyph.ends ended = false

/-! ## Characters of words and numerals -/

/-- Letters and digits stand behind the space, within ASCII. -/
theorem toNat_of_isAlphanum {c : Char} (h : c.isAlphanum = true) :
    0x21 ≤ c.toNat ∧ c.toNat ≤ 0x7F := by
  change (decide (65 ≤ c.val ∧ c.val ≤ 90) || (decide (97 ≤ c.val) && decide (c.val ≤ 122)) ||
    (decide (48 ≤ c.val) && decide (c.val ≤ 57))) = true at h
  simp only [Bool.or_eq_true, Bool.and_eq_true, decide_eq_true_eq, UInt32.le_iff_toNat_le] at h
  have hval : c.toNat = c.val.toNat := rfl
  simp at h
  omega

theorem isBlank_of_isWordChar {c : Char} (h : isWordChar c = true) : Text.isBlank c = false := by
  -- all of these characters lie between two ranges of blanks
  have hrange : 0x21 ≤ c.toNat ∧ c.toNat ≤ 0x7F := by
    simp only [isWordChar, Bool.or_eq_true, decide_eq_true_eq] at h
    rcases h with ((h | rfl) | rfl) | rfl
    · exact toNat_of_isAlphanum h
    all_goals decide
  simp [Text.isBlank, Text.inRanges, Text.blankRanges]
  omega

theorem isGap_of_isWordChar {c : Char} (h : isWordChar c = true) : isGap c = false := by
  by_contra hgap
  have hblank := isBlank_of_isGap (by simpa using hgap)
  rw [isBlank_of_isWordChar h] at hblank
  cases hblank

theorem isWordChar_of_isGap {c : Char} (h : isGap c = true) : isWordChar c = false := by
  by_contra hword
  rw [isGap_of_isWordChar (by simpa using hword)] at h
  cases h

theorem isWordChar_numeral {x : Json.WrittenNumeral} {c : Char} (h : c ∈ x.text) :
    isWordChar c = true := by
  rcases Json.WrittenNumeral.isDigit_or_of_mem h with h | h
  · simp [isWordChar, Char.isAlphanum, h]
  · simp only [List.mem_cons, List.not_mem_nil, or_false] at h
    rcases h with rfl | rfl | rfl | rfl | rfl <;> rfl

theorem isWordChar_word {w : Json.Word} {c : Char} (h : c ∈ w.text) : isWordChar c = true := by
  cases w <;>
  · simp only [Json.Word.text, List.mem_cons, List.not_mem_nil, or_false] at h
    rcases h with rfl | rfl | rfl | rfl | rfl <;> rfl

theorem ends_wordChar {c : Char} (h : isWordChar c = true) (ended : Bool) :
    Glyph.ends ended (.plain c) = true := by
  have hmark : ∀ d : Char, isWordChar d = false → c ≠ d := fun d hd => ne_of_test h hd
  simp [Glyph.ends, isBlank_of_isWordChar h, hmark '{' rfl, hmark '[' rfl, hmark ':' rfl,
    hmark ',' rfl]

theorem ends_gap {c : Char} (h : isGap c = true) (ended : Bool) :
    Glyph.ends ended (.plain c) = ended := by
  rw [Glyph.ends, if_pos (isBlank_of_isGap h)]

/-- A closing bracket, and the blanks in front of one, are no characters of words. -/
theorem isWordChar_of_closes {c : Char} {gs : List Glyph} (h : closes (.plain c :: gs) = true) :
    isWordChar c = false := by
  rw [closes] at h
  split at h
  next hblank =>
    by_contra hword
    rw [isBlank_of_isWordChar (by simpa using hword)] at hblank
    cases hblank
  next => rcases of_decide_eq_true h with rfl | rfl <;> rfl

/-! ## Pieces -/

/-- A plain spelling begins with a blank or with its first piece. -/
theorem Spelled.uncons {ps : List Piece} {c : Char} {text : List Char}
    (h : Spelled Blank Blank ps (c :: text)) :
    (isGap c = true ∧ Spelled Blank Blank ps text) ∨
      ∃ p qs tail rest, ps = p :: qs ∧ p.text = c :: tail ∧ text = tail ++ rest ∧
        Spelled Blank Blank qs rest := by
  generalize hwhole : c :: text = whole at h
  cases h with
  | nil hblank =>
    subst hwhole
    obtain ⟨hc, hrest⟩ := List.forall_mem_cons.mp hblank
    exact .inl ⟨hc, .nil hrest⟩
  | @cons g p qs rest hblank more =>
    cases g with
    | nil =>
      obtain ⟨d, tail, hp⟩ := p.text_eq_cons
      rw [hp] at hwhole
      obtain ⟨rfl, rfl⟩ := List.cons.inj hwhole
      exact .inr ⟨p, qs, tail, rest, rfl, hp, rfl, more⟩
    | cons d g =>
      obtain ⟨rfl, rfl⟩ := List.cons.inj hwhole
      obtain ⟨hd, hg⟩ := List.forall_mem_cons.mp hblank
      exact .inl ⟨hd, .cons hg more⟩

theorem Spelled.eq_nil {ps : List Piece} (h : Spelled Blank Blank ps []) : ps = [] := by
  generalize hwhole : [] = whole at h
  cases h with
  | nil => rfl
  | @cons g p qs rest hblank more =>
    obtain ⟨c, tail, hp⟩ := p.text_eq_cons
    simp [hp] at hwhole

/-- The glyphs of a piece. -/
def pieceGlyphs : Piece → List Glyph
  | .quoted strokes => (Piece.quoted strokes).text.map Glyph.quoted
  | p => p.text.map Glyph.plain

/-- A piece is a mark, consists of characters of words and numerals, or is a quoted text. -/
theorem piece_cases {p : Piece} {c : Char} {tail : List Char} (hp : p.text = c :: tail) :
    (∃ m, p = .mark m ∧ c = m.char ∧ tail = []) ∨
      ((∀ d ∈ c :: tail, isWordChar d = true) ∧ pieceGlyphs p = (c :: tail).map Glyph.plain ∧
        p.endsElement = true ∧ p.mayFollow true = false) ∨
      (∃ strokes, p = .quoted strokes ∧ c = '"' ∧
        tail = strokes.flatMap Stroke.text ++ ['"']) := by
  cases p with
  | mark m =>
    obtain ⟨rfl, rfl⟩ := List.cons.inj hp
    exact .inl ⟨m, rfl, rfl, rfl⟩
  | word w =>
    rw [← hp]
    exact .inr (.inl ⟨fun d hd => isWordChar_word hd, rfl, rfl, rfl⟩)
  | numeral x =>
    rw [← hp]
    exact .inr (.inl ⟨fun d hd => isWordChar_numeral hd, rfl, rfl, rfl⟩)
  | quoted strokes =>
    obtain ⟨rfl, rfl⟩ := List.cons.inj hp
    exact .inr (.inr ⟨strokes, rfl, rfl, rfl⟩)

theorem Spelled.of_blank_cons {ps : List Piece} {c : Char} {text : List Char} (hc : isGap c = true)
    (h : Spelled Blank Blank ps (c :: text)) : Spelled Blank Blank ps text := by
  rcases Spelled.uncons h with ⟨-, hrest⟩ | ⟨p, qs, tail, rest, rfl, hp, -, -⟩
  · exact hrest
  -- no piece begins with a blank
  · rcases piece_cases hp with ⟨m, rfl, rfl, rfl⟩ | ⟨hword, -⟩ | ⟨strokes, rfl, rfl, rfl⟩
    · cases m <;> cases hc
    · rw [isGap_of_isWordChar (hword c List.mem_cons_self)] at hc
      cases hc
    · cases hc

theorem pieceGlyphs_ne_nil (p : Piece) : pieceGlyphs p ≠ [] := by
  obtain ⟨c, tail, hp⟩ := p.text_eq_cons
  cases p <;> simp [pieceGlyphs, hp]

/-- A piece that begins with a quote is a quoted text. -/
theorem quoted_of_quote {p : Piece} {tail : List Char} (hp : p.text = '"' :: tail) :
    ∃ strokes, p = .quoted strokes ∧ tail = strokes.flatMap Stroke.text ++ ['"'] := by
  rcases piece_cases hp with ⟨m, -, hm, -⟩ | ⟨hword, -⟩ | ⟨strokes, hquoted, -, htail⟩
  · cases m <;> cases hm
  · cases hword '"' List.mem_cons_self
  · exact ⟨strokes, hquoted, htail⟩

theorem spacedOut_cons {c : Char} {gs : List Glyph} (hcomma : c = ',' → closes gs = false) :
    spacedOut (.plain c :: gs) = c :: spacedOut gs := by
  rw [spacedOut, if_neg]
  rintro ⟨hc, hcloses⟩
  rw [hcomma hc] at hcloses
  cases hcloses

theorem spacedOut_wordChars {text : List Char} (h : ∀ d ∈ text, isWordChar d = true)
    (gs : List Glyph) : spacedOut (text.map Glyph.plain ++ gs) = text ++ spacedOut gs := by
  induction text with
  | nil => rfl
  | cons c text ih =>
    obtain ⟨hc, htext⟩ := List.forall_mem_cons.mp h
    have hcomma : c ≠ ',' := ne_of_test hc rfl
    rw [List.map_cons, List.cons_append, spacedOut_cons fun he => absurd he hcomma, ih htext]
    rfl

theorem spacedOut_quoted (text : List Char) (gs : List Glyph) :
    spacedOut (text.map Glyph.quoted ++ gs) = text ++ spacedOut gs := by
  induction text with
  | nil => rfl
  | cons c text ih => exact congrArg (c :: ·) ih

/-- The glyphs of a piece are left as they are, unless it is a comma that a closing bracket
follows. -/
theorem spacedOut_pieceGlyphs {p : Piece} {gs : List Glyph}
    (hcomma : p = .mark .comma → closes gs = false) :
    spacedOut (pieceGlyphs p ++ gs) = p.text ++ spacedOut gs := by
  obtain ⟨c, tail, hp⟩ := p.text_eq_cons
  rcases piece_cases hp with ⟨m, rfl, rfl, rfl⟩ | ⟨hword, hglyphs, -⟩ | ⟨strokes, rfl, rfl, rfl⟩
  · refine spacedOut_cons fun hm => hcomma ?_
    cases m <;> first | rfl | cases hm
  · rw [hglyphs, hp, spacedOut_wordChars hword]
  · exact spacedOut_quoted _ gs

theorem ends_wordChars {text : List Char} (h : ∀ d ∈ text, isWordChar d = true) :
    (text.map Glyph.plain).foldl Glyph.ends true = true := by
  induction text with
  | nil => rfl
  | cons c text ih =>
    obtain ⟨hc, htext⟩ := List.forall_mem_cons.mp h
    rw [List.map_cons, List.foldl_cons, ends_wordChar hc, ih htext]

theorem ends_quoted (text : List Char) :
    (text.map Glyph.quoted).foldl Glyph.ends true = true := by
  induction text with
  | nil => rfl
  | cons c text ih => exact ih

/-- An element ends behind the glyphs of a piece where one ends behind the piece. -/
theorem ends_pieceGlyphs (p : Piece) (ended : Bool) :
    (pieceGlyphs p).foldl Glyph.ends ended = p.endsElement := by
  obtain ⟨c, tail, hp⟩ := p.text_eq_cons
  rcases piece_cases hp with ⟨m, rfl, -⟩ | ⟨hword, hglyphs, hend, -⟩ | ⟨strokes, rfl, -⟩
  · cases m <;> rfl
  · obtain ⟨hc, htail⟩ := List.forall_mem_cons.mp hword
    rw [hglyphs, hend, List.map_cons, List.foldl_cons, ends_wordChar hc, ends_wordChars htail]
  · exact ends_quoted (strokes.flatMap Stroke.text ++ ['"'])

theorem keepsQuotes_cleaned : KeepsQuotes (cleaned true) := ⟨rfl, fun _ _ => rfl⟩

/-! ## Compositions -/

/-- Glyphs that consist of pieces in their order; in between there are blanks, comments, and
commas that a closing bracket follows. Whether an element ends in front of the glyphs is said by
`ended`, and whether the commas may be without an element in front of them by `lone`. -/
inductive Composed (lone : Bool) : Bool → List Piece → List Glyph → Prop where
  | nil {ended : Bool} : Composed lone ended [] []
  | blank {ended : Bool} {ps : List Piece} {gs : List Glyph} (c : Char) (h : isGap c = true)
    (more : Composed lone ended ps gs) : Composed lone ended ps (.plain c :: gs)
  | opener {ended : Bool} {ps : List Piece} {gs : List Glyph} (more : Composed lone ended ps gs) :
    Composed lone ended ps (.opener :: gs)
  | comment {ended : Bool} {ps : List Piece} {gs : List Glyph} (c : Char)
    (more : Composed lone ended ps gs) : Composed lone ended ps (.comment c :: gs)
  | comma {ended : Bool} {ps : List Piece} {gs : List Glyph} (h : closes gs = true)
    (hended : ended = true ∨ lone = true) (more : Composed lone false ps gs) :
    Composed lone ended ps (.plain ',' :: gs)
  | piece {ended : Bool} {ps : List Piece} {gs : List Glyph} (p : Piece)
    (h : p = .mark .comma → closes gs = false) (more : Composed lone p.endsElement ps gs) :
    Composed lone ended (p :: ps) (pieceGlyphs p ++ gs)

/-- With spaces for the comments, and without the commas in between, a composition is a plain
spelling of its pieces. -/
theorem Composed.spelled_spacedOut {lone ended : Bool} {ps : List Piece} {gs : List Glyph}
    (h : Composed lone ended ps gs) : Spelled Blank Blank ps (spacedOut gs) := by
  have hgap : ∀ {c : Char}, isGap c = true → Blank [c] := fun hc d hd => by
    rwa [List.mem_singleton.mp hd]
  induction h with
  | nil => exact .nil nofun
  | blank c hc more ih =>
    have hcomma : c ≠ ',' := ne_of_test hc rfl
    rw [spacedOut_cons fun he => absurd he hcomma]
    exact Spelled.blank_append (hgap hc) ih
  | opener more ih => exact Spelled.blank_append (hgap rfl) ih
  | comment c more ih => exact ih
  | comma hcloses hended more ih =>
    rw [spacedOut, if_pos ⟨rfl, hcloses⟩]
    exact ih
  | @piece ended ps gs p hcomma more ih =>
    rw [spacedOut_pieceGlyphs hcomma]
    have hspelled : Spelled Blank Blank (p :: ps) ([] ++ p.text ++ spacedOut gs) :=
      .cons (by simp [Blank]) ih
    exact hspelled

/-! ## Flaws -/

theorem Glues.append (front : List Glyph) {gs : List Glyph} (h : Glues gs) :
    Glues (front ++ gs) := by
  obtain ⟨before, c, between, d, behind, rfl, hrest⟩ := h
  exact ⟨front ++ before, c, between, d, behind, (List.append_assoc ..).symm, hrest⟩

/-- Nothing is glued where no glyph that ends an element has a comment right behind it. -/
theorem not_glues_of_isChain {gs : List Glyph}
    (h : gs.IsChain fun g g' => ¬ (g.ends false = true ∧ g'.vanishes = true)) : ¬ Glues gs := by
  rintro ⟨before, c, between, d, behind, rfl, hne, hbetween, hc, -⟩
  obtain ⟨g, between, rfl⟩ := List.exists_cons_of_ne_nil hne
  have hnext := (List.isChain_cons_cons.mp (List.isChain_append.mp h).2.1).1
  exact hnext ⟨ends_wordChar hc false, hbetween g List.mem_cons_self⟩

theorem HasLoneComma.append {ended : Bool} (front : List Glyph) {gs : List Glyph}
    (h : HasLoneComma (front.foldl Glyph.ends ended) gs) : HasLoneComma ended (front ++ gs) := by
  obtain ⟨before, behind, rfl, hcloses, hended⟩ := h
  refine ⟨front ++ before, behind, (List.append_assoc ..).symm, hcloses, ?_⟩
  rw [List.foldl_append, hended]

/-- Glyphs that are no characters of words or numerals begin nothing that is glued. -/
theorem Glues.of_append (front : List Glyph) {gs : List Glyph}
    (hfront : ∀ c, .plain c ∈ front → isWordChar c = false) (h : Glues (front ++ gs)) :
    Glues gs := by
  induction front with
  | nil => exact h
  | cons g front ih =>
    apply ih fun c hc => hfront c (List.mem_cons_of_mem _ hc)
    obtain ⟨before, c, between, d, behind, hgs, hne, hbetween, hc, hd⟩ := h
    cases before with
    | nil =>
      rw [hfront c (by rw [(List.cons.inj hgs).1]; exact List.mem_cons_self)] at hc
      cases hc
    | cons g' before =>
      exact ⟨before, c, between, d, behind, (List.cons.inj hgs).2, hne, hbetween, hc, hd⟩

/-- Among glyphs that are no commas there is no lone comma. -/
theorem HasLoneComma.of_append (front : List Glyph) (hfront : .plain ',' ∉ front) {ended : Bool}
    {gs : List Glyph} (h : HasLoneComma ended (front ++ gs)) :
    HasLoneComma (front.foldl Glyph.ends ended) gs := by
  induction front generalizing ended with
  | nil => exact h
  | cons g front ih =>
    apply ih fun hmem => hfront (List.mem_cons_of_mem _ hmem)
    obtain ⟨before, behind, hgs, hcloses, hended⟩ := h
    cases before with
    | nil => exact absurd (by rw [(List.cons.inj hgs).1]; exact List.mem_cons_self) hfront
    | cons g' before =>
      obtain ⟨rfl, hrest⟩ := List.cons.inj hgs
      exact ⟨before, behind, hrest, hcloses, hended⟩

/-- A comma that is not lone begins nothing. -/
theorem HasLoneComma.of_comma {ended : Bool} {gs : List Glyph}
    (hcomma : closes gs = true → ended = true) (h : HasLoneComma ended (.plain ',' :: gs)) :
    HasLoneComma false gs := by
  obtain ⟨before, behind, hgs, hcloses, hended⟩ := h
  cases before with
  | nil =>
    obtain ⟨-, rfl⟩ := List.cons.inj hgs
    rw [hcomma hcloses] at hended
    cases hended
  | cons g before =>
    obtain ⟨rfl, hrest⟩ := List.cons.inj hgs
    exact ⟨before, behind, hrest, hcloses, hended⟩

/-- Is a character of a word or a numeral the first glyph that is not in a comment? -/
def wordNext : List Glyph → Bool
  | [] => false
  | .opener :: gs | .comment _ :: gs => wordNext gs
  | .quoted _ :: _ => false
  | .plain c :: _ => isWordChar c

theorem wordNext_append {between behind : List Glyph} {d : Char}
    (hbetween : ∀ g ∈ between, Glyph.vanishes g = true) (hd : isWordChar d = true) :
    wordNext (between ++ .plain d :: behind) = true := by
  induction between with
  | nil => exact hd
  | cons g between ih =>
    obtain ⟨hg, hrest⟩ := List.forall_mem_cons.mp hbetween
    cases g with
    | opener => exact ih hrest
    | comment c => exact ih hrest
    | _ => cases hg

/-- What is glued to a word or a numeral comes next behind it. -/
theorem Glues.of_run {c : Char} {tail : List Char} {gs : List Glyph}
    (h : Glues ((c :: tail).map Glyph.plain ++ gs)) : wordNext gs = true ∨ Glues gs := by
  induction tail generalizing c with
  | nil =>
    obtain ⟨before, x, between, d, behind, hgs, hne, hbetween, hx, hd⟩ := h
    cases before with
    | nil =>
      left
      rw [show gs = between ++ .plain d :: behind from (List.cons.inj hgs).2]
      exact wordNext_append hbetween hd
    | cons g before =>
      exact .inr ⟨before, x, between, d, behind, (List.cons.inj hgs).2, hne, hbetween, hx, hd⟩
  | cons c' tail ih =>
    obtain ⟨before, x, between, d, behind, hgs, hne, hbetween, hx, hd⟩ := h
    cases before with
    | nil =>
      -- what stands in between is in a comment, and the next character is not
      obtain ⟨g, between, rfl⟩ := List.exists_cons_of_ne_nil hne
      have hfirst := hbetween g List.mem_cons_self
      rw [← (List.cons.inj (List.cons.inj hgs).2).1] at hfirst
      cases hfirst
    | cons g before =>
      exact ih ⟨before, x, between, d, behind, (List.cons.inj hgs).2, hne, hbetween, hx, hd⟩

theorem isWordChar_mark (m : Mark) : isWordChar m.char = false := by
  cases m <;> rfl

/-- Behind the end of an element, no word or numeral comes next. -/
theorem Composed.wordNext_eq {lone ended : Bool} {ps : List Piece} {gs : List Glyph}
    (h : Composed lone ended ps gs) (hplaced : WellPlaced true ps) : wordNext gs = false := by
  induction h with
  | nil => rfl
  | blank c hc more ih => exact isWordChar_of_isGap hc
  | opener more ih => exact ih hplaced
  | comment c more ih => exact ih hplaced
  | comma hcloses hended more ih => rfl
  | piece p hcomma more ih =>
    obtain ⟨c, tail, hp⟩ := p.text_eq_cons
    rcases piece_cases hp with ⟨m, rfl, -⟩ | ⟨-, -, -, hfollow⟩ | ⟨strokes, rfl, -⟩
    · exact isWordChar_mark m
    · rw [hplaced.1] at hfollow
      cases hfollow
    · rfl

/-- In a composition of well placed pieces no comment glues: blanks and marks are glued to nothing,
and behind a word or a numeral no other comes next. -/
theorem Composed.not_glues {lone ended ended' : Bool} {ps : List Piece} {gs : List Glyph}
    (h : Composed lone ended ps gs) (hplaced : WellPlaced ended' ps) : ¬ Glues gs := by
  have hsingle : ∀ {c : Char} {gs : List Glyph}, isWordChar c = false → ¬ Glues gs →
      ¬ Glues (.plain c :: gs) := by
    intro c gs hc hno hglues
    refine hno (hglues.of_append [.plain c] fun d hd => ?_)
    obtain rfl := Glyph.plain.inj (List.mem_singleton.mp hd)
    exact hc
  induction h generalizing ended' with
  | nil =>
    rintro ⟨before, c, between, d, behind, hgs, -⟩
    simp at hgs
  | blank c hc more ih => exact hsingle (isWordChar_of_isGap hc) (ih hplaced)
  | opener more ih => exact fun hg => ih hplaced (hg.of_append [.opener] (by simp))
  | comment c more ih => exact fun hg => ih hplaced (hg.of_append [.comment c] (by simp))
  | comma hcloses hended more ih => exact hsingle rfl (ih hplaced)
  | piece p hcomma more ih =>
    have hbehind := ih hplaced.2
    obtain ⟨c, tail, hp⟩ := p.text_eq_cons
    rcases piece_cases hp with ⟨m, rfl, -⟩ | ⟨-, hglyphs, hend, -⟩ | ⟨strokes, rfl, -⟩
    · exact hsingle (isWordChar_mark m) hbehind
    · rw [hglyphs]
      intro hg
      rcases hg.of_run with hnext | hg
      · rw [more.wordNext_eq (hend ▸ hplaced.2)] at hnext
        cases hnext
      · exact hbehind hg
    · refine fun hg => hbehind (hg.of_append _ fun d hd => ?_)
      obtain ⟨_, -, he⟩ := List.mem_map.mp hd
      cases he

/-- The only comma among the glyphs of a piece is the piece itself. -/
theorem eq_comma_of_mem {p : Piece} (h : .plain ',' ∈ pieceGlyphs p) : p = .mark .comma := by
  obtain ⟨c, tail, hp⟩ := p.text_eq_cons
  rcases piece_cases hp with ⟨m, rfl, -⟩ | ⟨hword, hglyphs, -⟩ | ⟨strokes, rfl, -⟩
  · have hm := Glyph.plain.inj (List.mem_singleton.mp h)
    cases m <;> first | rfl | cases hm
  · rw [hglyphs] at h
    obtain ⟨d, hd, he⟩ := List.mem_map.mp h
    obtain rfl := Glyph.plain.inj he
    cases hword ',' hd
  · obtain ⟨_, -, he⟩ := List.mem_map.mp h
    cases he

/-- No comma is lone in a composition without lone commas in between. -/
theorem Composed.not_hasLoneComma {ended : Bool} {ps : List Piece} {gs : List Glyph}
    (h : Composed false ended ps gs) : ¬ HasLoneComma ended gs := by
  induction h with
  | nil =>
    rintro ⟨before, behind, hgs, -⟩
    simp at hgs
  | @blank ended ps gs c hc more ih =>
    intro hlone
    have hrest := hlone.of_append [.plain c] fun hmem => by
      obtain rfl := Glyph.plain.inj (List.mem_singleton.mp hmem)
      cases hc
    rw [List.foldl_cons, ends_gap hc] at hrest
    exact ih hrest
  | opener more ih => exact fun hlone => ih (hlone.of_append [.opener] (by simp))
  | comment c more ih => exact fun hlone => ih (hlone.of_append [.comment c] (by simp))
  | comma hcloses hended more ih =>
    exact fun hlone => ih (hlone.of_comma fun _ => hended.resolve_right Bool.false_ne_true)
  | @piece ended ps gs p hcomma more ih =>
    intro hlone
    by_cases hp : p = .mark .comma
    · subst hp
      refine ih (hlone.of_comma fun hcloses => ?_)
      rw [hcomma rfl] at hcloses
      cases hcloses
    · have hrest := hlone.of_append (pieceGlyphs p) fun hmem => hp (eq_comma_of_mem hmem)
      rw [ends_pieceGlyphs] at hrest
      exact ih hrest

/-! ## What stripping leaves -/

theorem stripped_of_closes {gs : List Glyph} {d : Char} {text : List Char}
    (hcloses : closes gs = true) (h : stripped gs = d :: text) : isWordChar d = false := by
  induction gs with
  | nil => cases h
  | cons g gs ih =>
    cases g with
    | opener => exact ih hcloses h
    | quoted c => cases hcloses
    | comment c =>
      rw [stripped] at h
      split at h
      next hc =>
        obtain ⟨rfl, -⟩ := List.cons.inj h
        rw [hc]
        rfl
      next => exact ih hcloses h
    | plain c =>
      rw [stripped] at h
      split at h
      next hc =>
        rw [hc.1] at hcloses
        cases hcloses
      next =>
        obtain ⟨rfl, -⟩ := List.cons.inj h
        exact isWordChar_of_closes hcloses

/-- When what is left of glyphs begins with a character of a word or a numeral, this comes first,
comments without newlines aside. -/
theorem Outside.head {inside : Bool} {gs : List Glyph} {d : Char} {text : List Char}
    (h : Outside inside gs) (hd : isWordChar d = true) (htext : stripped gs = d :: text) :
    ∃ between behind, gs = between ++ .plain d :: behind ∧
      (∀ g ∈ between, Glyph.vanishes g = true) ∧ Outside false behind ∧ stripped behind = text := by
  induction h with
  | nil => cases htext
  | opener more ih =>
    obtain ⟨between, behind, rfl, hbetween, hrest⟩ := ih htext
    refine ⟨.opener :: between, behind, rfl, ?_, hrest⟩
    exact List.forall_mem_cons.mpr ⟨rfl, hbetween⟩
  | comment c more ih =>
    rw [stripped] at htext
    split at htext
    next hc =>
      obtain ⟨rfl, -⟩ := List.cons.inj htext
      rw [hc] at hd
      cases hd
    next hc =>
      obtain ⟨between, behind, rfl, hbetween, hrest⟩ := ih htext
      refine ⟨.comment c :: between, behind, rfl, ?_, hrest⟩
      exact List.forall_mem_cons.mpr ⟨by simpa [Glyph.vanishes] using hc, hbetween⟩
  | plain c hc more ih =>
    rw [stripped] at htext
    split at htext
    next hcomma =>
      rw [stripped_of_closes hcomma.2 htext] at hd
      cases hd
    next =>
      obtain ⟨rfl, hrest⟩ := List.cons.inj htext
      exact ⟨[], _, rfl, by simp, more, hrest⟩
  | quoted body =>
    obtain ⟨rfl, -⟩ := List.cons.inj htext
    cases hd

/-- Where nothing is glued, the characters of a word or a numeral stand side by side. -/
theorem Outside.run {tail rest : List Char} {c : Char} {gs : List Glyph} (h : Outside false gs)
    (hc : isWordChar c = true) (htail : ∀ d ∈ tail, isWordChar d = true)
    (hglue : ¬ Glues (.plain c :: gs)) (htext : stripped gs = tail ++ rest) :
    ∃ behind, gs = tail.map Glyph.plain ++ behind ∧ Outside false behind ∧
      stripped behind = rest := by
  induction tail generalizing c gs with
  | nil => exact ⟨gs, rfl, h, htext⟩
  | cons d tail ih =>
    have hd := htail d List.mem_cons_self
    obtain ⟨between, behind, rfl, hbetween, houtside, hbehind⟩ := h.head hd htext
    -- anything in between would glue the two
    obtain rfl : between = [] := by
      by_contra hne
      exact hglue ⟨[], c, between, d, behind, rfl, hne, hbetween, hc, hd⟩
    obtain ⟨behind', rfl, hrest⟩ := ih houtside hd
      (fun x hx => htail x (List.mem_cons_of_mem _ hx)) (fun hg => hglue (hg.append [_])) hbehind
    exact ⟨behind', rfl, hrest⟩

/-- Glyphs of which stripping leaves a plain spelling, with no comment that glues, are composed of
the pieces. -/
theorem composed_of_stripped {ps : List Piece} {inside : Bool} {gs : List Glyph}
    (houtside : Outside inside gs) (hglue : ¬ Glues gs)
    (h : Spelled Blank Blank ps (stripped gs)) (ended : Bool) : Composed true ended ps gs := by
  induction hlength : gs.length using Nat.strong_induction_on generalizing inside gs ps ended with
  | _ n ih =>
    subst hlength
    -- nothing is glued behind any of the glyphs either
    have hbehind : ∀ (front : List Glyph) {inside : Bool} {behind : List Glyph} {qs : List Piece},
        gs = front ++ behind → front ≠ [] → Outside inside behind →
        Spelled Blank Blank qs (stripped behind) → ∀ ended, Composed true ended qs behind := by
      rintro front inside behind qs rfl hne houtside hqs
      have hshorter : behind.length < (front ++ behind).length := by
        have hfront := List.length_pos_iff.mpr hne
        rw [List.length_append]
        omega
      intro ended
      exact ih _ hshorter houtside (fun hg => hglue (hg.append front)) hqs ended rfl
    have hpiece : ∀ {inside : Bool} {p : Piece} {qs : List Piece} {behind : List Glyph},
        gs = pieceGlyphs p ++ behind → (p = .mark .comma → closes behind = false) →
        Outside inside behind → Spelled Blank Blank qs (stripped behind) →
        Composed true ended (p :: qs) gs := by
      rintro inside p qs behind rfl hcomma houtside hqs
      exact .piece p hcomma (hbehind (pieceGlyphs p) rfl (pieceGlyphs_ne_nil p) houtside hqs _)
    cases houtside with
    | nil =>
      rw [Spelled.eq_nil h]
      exact .nil
    | opener more => exact .opener (hbehind [.opener] rfl (by simp) more h ended)
    | @comment _ gs c more =>
      refine .comment c (hbehind [.comment c] rfl (by simp) more ?_ ended)
      rw [stripped] at h
      split at h
      next hc =>
        -- a newline is a blank in front of what is left
        subst hc
        exact Spelled.of_blank_cons rfl h
      next => exact h
    | @plain _ gs c hc more =>
      by_cases hcomma : c = ',' ∧ closes gs = true
      · obtain ⟨rfl, hcloses⟩ := hcomma
        rw [stripped, if_pos ⟨rfl, hcloses⟩] at h
        exact .comma hcloses (.inr rfl) (hbehind [.plain ','] rfl (by simp) more h false)
      · rw [stripped, if_neg hcomma] at h
        rcases Spelled.uncons h with ⟨hblank, hrest⟩ | ⟨p, qs, tail, rest, rfl, hp, htext, hqs⟩
        · exact .blank c hblank (hbehind [.plain c] rfl (by simp) more hrest ended)
        · rcases piece_cases hp with ⟨m, rfl, rfl, rfl⟩ | ⟨hword, hglyphs, -, hfollow⟩ |
            ⟨strokes, -, rfl, -⟩
          · rw [List.nil_append] at htext
            refine hpiece rfl (fun hm => ?_) more (htext ▸ hqs)
            obtain rfl := Piece.mark.inj hm
            exact Bool.eq_false_iff.mpr fun hcloses => hcomma ⟨rfl, hcloses⟩
          · -- the other characters of the word come next, since nothing is glued
            obtain ⟨hc', htail⟩ := List.forall_mem_cons.mp hword
            obtain ⟨behind, rfl, houtside, rfl⟩ := more.run hc' htail hglue htext
            refine hpiece (by rw [hglyphs]; rfl) (fun hm => ?_) houtside hqs
            rw [hm] at hfollow
            cases hfollow
          · exact absurd rfl hc
    | quoted body =>
      rw [stripped] at h
      rcases Spelled.uncons h with ⟨hblank, -⟩ | ⟨p, qs, tail, rest, rfl, hp, htext, hqs⟩
      · cases hblank
      · obtain ⟨strokes, rfl, rfl⟩ := quoted_of_quote hp
        -- the quoted text ends where the piece does
        rw [List.append_assoc, List.singleton_append] at htext
        obtain ⟨text, rfl, rfl⟩ := keepsQuotes_stripped.strokes htext
        refine hpiece ?_ (fun hm => by cases hm) (outside_glyphs text) hqs
        rw [glyphsFrom_strokes]
        rfl

/-! ## What cleaning leaves -/

theorem cleaned_of_closes {gs : List Glyph} {ended : Bool} {d : Char} {text : List Char}
    (hcloses : closes gs = true) (h : cleaned ended gs = d :: text) : isWordChar d = false := by
  induction gs with
  | nil => cases h
  | cons g gs ih =>
    cases g with
    | opener =>
      obtain ⟨rfl, -⟩ := List.cons.inj h
      rfl
    | quoted c => cases hcloses
    | comment c => exact ih hcloses h
    | plain c =>
      rw [cleaned] at h
      split at h
      next hc =>
        rw [hc.1] at hcloses
        cases hcloses
      next =>
        obtain ⟨rfl, -⟩ := List.cons.inj h
        exact isWordChar_of_closes hcloses

/-- Cleaning leaves the characters of a word or a numeral of just these characters. -/
theorem Outside.cleaned_run {tail rest : List Char} {gs : List Glyph} (h : Outside false gs)
    (htail : ∀ d ∈ tail, isWordChar d = true) (htext : cleaned true gs = tail ++ rest) :
    ∃ behind, gs = tail.map Glyph.plain ++ behind ∧ Outside false behind ∧
      cleaned true behind = rest := by
  induction tail generalizing gs with
  | nil => exact ⟨gs, rfl, h, htext⟩
  | cons d tail ih =>
    obtain ⟨hd, htail'⟩ := List.forall_mem_cons.mp htail
    cases h with
    | nil => cases htext
    | opener more =>
      obtain ⟨rfl, -⟩ := List.cons.inj htext
      cases hd
    | quoted body =>
      obtain ⟨rfl, -⟩ := List.cons.inj htext
      cases hd
    | @plain _ gs c hc more =>
      rw [cleaned] at htext
      split at htext
      next hcomma =>
        rw [cleaned_of_closes hcomma.2.2 htext] at hd
        cases hd
      next =>
        obtain ⟨rfl, hrest⟩ := List.cons.inj htext
        rw [ends_wordChar hd] at hrest
        obtain ⟨behind, rfl, hbehind⟩ := ih more htail' hrest
        exact ⟨behind, rfl, hbehind⟩

/-- Glyphs of which cleaning leaves a plain spelling of well placed pieces are composed of the
pieces. An element ends in front of the glyphs just if one ends in front of the pieces, except
behind a trailing comma, up to the closing bracket. -/
theorem composed_of_cleaned {ps : List Piece} {inside ended ended' : Bool} {gs : List Glyph}
    (houtside : Outside inside gs) (hended : ended = ended' ∨ closes gs = true)
    (hplaced : WellPlaced ended' ps) (h : Spelled Blank Blank ps (cleaned ended gs)) :
    Composed false ended ps gs := by
  induction hlength : gs.length using Nat.strong_induction_on
    generalizing inside gs ended ended' ps with
  | _ n ih =>
    subst hlength
    have hpiece : ∀ {inside : Bool} {p : Piece} {qs : List Piece} {behind : List Glyph},
        gs = pieceGlyphs p ++ behind → ps = p :: qs →
        (p = .mark .comma → closes behind = false) → Outside inside behind →
        Spelled Blank Blank qs (cleaned p.endsElement behind) → Composed false ended ps gs := by
      rintro inside p qs behind rfl rfl hcomma houtside hqs
      have hshorter : behind.length < (pieceGlyphs p ++ behind).length := by
        have hfront := List.length_pos_iff.mpr (pieceGlyphs_ne_nil p)
        rw [List.length_append]
        omega
      exact .piece p hcomma (ih _ hshorter houtside (.inl rfl) hplaced.2 hqs rfl)
    cases houtside with
    | nil =>
      rw [Spelled.eq_nil h]
      exact .nil
    | @opener gs more =>
      exact .opener (ih gs.length (Nat.lt_succ_self _) more hended hplaced
        (Spelled.of_blank_cons rfl h) rfl)
    | @comment _ gs c more =>
      exact .comment c (ih gs.length (Nat.lt_succ_self _) more hended hplaced h rfl)
    | @plain _ gs c hc more =>
      by_cases hdrop : c = ',' ∧ ended = true ∧ closes gs = true
      · obtain ⟨rfl, rfl, hcloses⟩ := hdrop
        rw [cleaned, if_pos ⟨rfl, rfl, hcloses⟩] at h
        exact .comma hcloses (.inl rfl)
          (ih gs.length (Nat.lt_succ_self _) more (.inr hcloses) hplaced h rfl)
      · rw [cleaned, if_neg hdrop] at h
        rcases Spelled.uncons h with ⟨hblank, hrest⟩ | ⟨p, qs, tail, rest, rfl, hp, htext, hqs⟩
        · rw [closes, if_pos (isBlank_of_isGap hblank)] at hended
          rw [ends_gap hblank] at hrest
          exact .blank c hblank (ih gs.length (Nat.lt_succ_self _) more hended hplaced hrest rfl)
        · rcases piece_cases hp with ⟨m, rfl, rfl, rfl⟩ | ⟨hword, hglyphs, hend, hfollow⟩ |
            ⟨strokes, -, rfl, -⟩
          · rw [List.nil_append] at htext
            have hends : Glyph.ends ended (.plain m.char) = (Piece.mark m).endsElement := by
              cases m <;> rfl
            refine hpiece rfl rfl (fun hm => ?_) more (hends ▸ htext ▸ hqs)
            -- a comma has the end of an element in front of it, and would be left out
            obtain rfl := Piece.mark.inj hm
            refine Bool.eq_false_iff.mpr fun hcloses => hdrop ⟨rfl, ?_, hcloses⟩
            rcases hended with rfl | hcloses'
            · exact hplaced.1
            · cases hcloses'
          · obtain ⟨hc', htail⟩ := List.forall_mem_cons.mp hword
            rw [ends_wordChar hc'] at htext
            obtain ⟨behind, rfl, houtside, rfl⟩ := more.cleaned_run htail htext
            refine hpiece (by rw [hglyphs]; rfl) rfl (fun hm => ?_) houtside (hend ▸ hqs)
            rw [hm] at hfollow
            cases hfollow
          · exact absurd rfl hc
    | quoted body =>
      rw [cleaned] at h
      rcases Spelled.uncons h with ⟨hblank, -⟩ | ⟨p, qs, tail, rest, rfl, hp, htext, hqs⟩
      · cases hblank
      · obtain ⟨strokes, rfl, rfl⟩ := quoted_of_quote hp
        rw [List.append_assoc, List.singleton_append] at htext
        obtain ⟨text, rfl, rfl⟩ := keepsQuotes_cleaned.strokes htext
        refine hpiece ?_ rfl (fun hm => by cases hm) (outside_glyphs text) hqs
        rw [glyphsFrom_strokes]
        rfl

/-- Without lone commas, the commas that a closing bracket follows are the trailing ones. -/
theorem cleaned_eq_spacedOut {ended : Bool} {gs : List Glyph} (h : ¬ HasLoneComma ended gs) :
    cleaned ended gs = spacedOut gs := by
  induction gs generalizing ended with
  | nil => rfl
  | cons g gs ih =>
    have hbehind : ¬ HasLoneComma (Glyph.ends ended g) gs := fun hlone => h (hlone.append [g])
    cases g with
    | opener => exact congrArg (' ' :: ·) (ih hbehind)
    | comment c => exact ih hbehind
    | quoted c => exact congrArg (c :: ·) (ih hbehind)
    | plain c =>
      rw [cleaned, spacedOut]
      by_cases hcomma : c = ',' ∧ closes gs = true
      · obtain ⟨rfl, hcloses⟩ := hcomma
        have hended : ended = true := by
          by_contra hno
          exact h ⟨[], gs, rfl, hcloses, by simpa using hno⟩
        rw [if_pos ⟨rfl, hended, hcloses⟩, if_pos ⟨rfl, hcloses⟩]
        exact ih hbehind
      · rw [if_neg fun hdrop => hcomma ⟨hdrop.1, hdrop.2.2⟩, if_neg hcomma, ih hbehind]

theorem clean_eq_spaceOut {document : List Char} (h : ¬ HasLoneComma false (glyphs document)) :
    clean document = spaceOut document :=
  cleaned_eq_spacedOut h

/-- Where stripping leaves a plain spelling and nothing is glued, so it is with spaces in place of
the comments, and the pieces are the same. -/
theorem spelled_spaceOut {ps : List Piece} {document : List Char}
    (hglue : ¬ Glues (glyphs document))
    (h : Spelled Blank Blank ps (strip document)) : Spelled Blank Blank ps (spaceOut document) := by
  rw [strip_eq] at h
  exact (composed_of_stripped (outside_glyphs document) hglue h false).spelled_spacedOut

/-- Where cleaning leaves a plain spelling of a document, nothing is glued and no comma is lone. -/
theorem not_glues_of_isPlain {doc : Written} {document : List Char}
    (h : doc.IsPlain (clean document)) :
    ¬ Glues (glyphs document) ∧ ¬ HasLoneComma false (glyphs document) := by
  have hcomposed := composed_of_cleaned (outside_glyphs document) (.inl rfl) doc.wellPlaced h
  exact ⟨hcomposed.not_glues doc.wellPlaced, hcomposed.not_hasLoneComma⟩

end NameResolution.Jsonc
