import Mathlib.Data.List.TakeWhile
import NameResolution.Proofs.Json.Numeral
import NameResolution.Proofs.Json.Quoted

/-!
# The tokens of a plain spelling

The reader cuts a plain spelling of orderly pieces at the ends of its pieces, and
what it makes of a piece depends on the piece alone, places aside
(`tokens_bare`). Two plain spellings of the same pieces therefore have the same bare
tokens.
-/

namespace NameResolution.Json

def Mark.lexeme : Mark → Lexeme
  | openBrace => .openBrace
  | closeBrace => .closeBrace
  | openBracket => .openBracket
  | closeBracket => .closeBracket
  | colon => .colon
  | comma => .comma

/-- What the reader makes of a piece, places aside. -/
def Piece.lexeme : Piece → Lexeme
  | mark m => m.lexeme
  | word w => .word (.ok w)
  | numeral x => .numeral (bared (keptNumeral (.ok (x.numeral, [])))) none
  | quoted strokes =>
    .quoted (onlyRead (scanQuoted .kept .plain (strokes.flatMap Stroke.text ++ ['"']))) none

/-- The reader makes of a piece in front of a text what the piece alone says, and goes on behind
the piece. -/
def Piece.IsReadBefore (p : Piece) (text : List Char) : Prop :=
  ∃ c tail, p.text = c :: tail ∧ isGap c = false ∧
    (lexemeAt c (tail ++ text)).1.bare = p.lexeme ∧ (lexemeAt c (tail ++ text)).2 = some text

theorem isReadBefore_mark (m : Mark) (text : List Char) : (Piece.mark m).IsReadBefore text := by
  cases m <;> exact ⟨_, [], rfl, rfl, rfl, rfl⟩

theorem isReadBefore_word (w : Word) (text : List Char) : (Piece.word w).IsReadBefore text := by
  cases w <;> exact ⟨_, _, rfl, rfl, rfl, rfl⟩

theorem isReadBefore_quoted (strokes : List Stroke) (text : List Char) :
    (Piece.quoted strokes).IsReadBefore text := by
  refine ⟨'"', _, rfl, rfl, ?_⟩
  rw [List.append_assoc, List.singleton_append]
  -- what is kept does not depend on the text behind, and passing over ends right before it
  have hkept := onlyRead_quoted strokes (m := .plain) trivial text []
  obtain ⟨cs, hskipped⟩ := scanQuoted_skipped strokes text
  constructor
  · show Lexeme.quoted (onlyRead (scanQuoted .kept .plain _)) ((faultOf? _).map Fault.bare) = _
    rw [hkept, hskipped]
    rfl
  · show behind? _ = some text
    rw [hskipped]
    rfl

theorem lexemeAt_numeral {c : Char} (h : c = '-' ∨ c.isDigit = true) (rest : List Char) :
    lexemeAt c rest =
      (.numeral (keptNumeral (scanNumeral (c :: rest))) (skippedNumeral (scanNumeral (c :: rest))),
        behind? (scanNumeral (c :: rest))) := by
  rcases h with rfl | h
  · rfl
  · unfold lexemeAt
    split
    next => exact absurd rfl (ne_of_test h (d := '{') rfl)
    next => exact absurd rfl (ne_of_test h (d := '}') rfl)
    next => exact absurd rfl (ne_of_test h (d := '[') rfl)
    next => exact absurd rfl (ne_of_test h (d := ']') rfl)
    next => exact absurd rfl (ne_of_test h (d := ':') rfl)
    next => exact absurd rfl (ne_of_test h (d := ',') rfl)
    next => exact absurd rfl (ne_of_test h (d := 'n') rfl)
    next => exact absurd rfl (ne_of_test h (d := 't') rfl)
    next => exact absurd rfl (ne_of_test h (d := 'f') rfl)
    next => exact absurd rfl (ne_of_test h (d := '"') rfl)
    next => rw [if_pos (.inr h)]

theorem isReadBefore_numeral (x : WrittenNumeral) {text : List Char} (h : EndsNumeral text) :
    (Piece.numeral x).IsReadBefore text := by
  obtain ⟨c, tail, htext, hc⟩ := x.text_eq_cons
  have hscan := scanNumeral_text x h
  rw [htext, List.cons_append] at hscan
  refine ⟨c, tail, htext, ?_, ?_⟩
  · rcases hc with rfl | hc
    · rfl
    · have hgap : ∀ d : Char, d.isDigit = false → c ≠ d := fun d hd => ne_of_test hc hd
      simp [isGap, hgap ' ' rfl, hgap '\n' rfl, hgap '\t' rfl, hgap '\r' rfl]
  -- out of range, the numeral is at fault where it ends, and that place does not count
  · have hkept : bared (keptNumeral (.ok (x.numeral, text))) =
        bared (keptNumeral (.ok (x.numeral, []))) := by
      simp only [keptNumeral]
      split <;> rfl
    rw [lexemeAt_numeral hc, hscan]
    exact ⟨congrArg (Lexeme.numeral · none) hkept, rfl⟩

/-- Every piece is read, and a numeral where it ends. -/
theorem Piece.isReadBefore {p : Piece} {text : List Char}
    (h : ∀ x, p = .numeral x → EndsNumeral text) : p.IsReadBefore text := by
  cases p with
  | mark m => exact isReadBefore_mark m text
  | word w => exact isReadBefore_word w text
  | numeral x => exact isReadBefore_numeral x (h x rfl)
  | quoted strokes => exact isReadBefore_quoted strokes text

/-! ## Texts -/

theorem continuesNumeral_of_isGap {c : Char} (h : isGap c = true) : continuesNumeral c = false := by
  simp only [isGap, Bool.or_eq_true, decide_eq_true_eq] at h
  rcases h with ((rfl | rfl) | rfl) | rfl <;> rfl

/-- A plain spelling of pieces that begin with a mark does not continue a numeral. -/
theorem Spelled.endsNumeral {ps : List Piece} {text : List Char} (h : Spelled Blank Blank ps text)
    (hps : BeginsWithMark ps) : EndsNumeral text := by
  cases h with
  | nil hblank => exact fun c hc => continuesNumeral_of_isGap (hblank c (List.mem_of_mem_head? hc))
  | @cons g p ps rest hblank more =>
    intro c hc
    cases g with
    | cons d g =>
      obtain rfl := Option.some.inj hc
      exact continuesNumeral_of_isGap (hblank d List.mem_cons_self)
    | nil =>
      cases p with
      | mark m =>
        obtain rfl := Option.some.inj hc
        cases m <;> rfl
      | word w => exact absurd (hps _ rfl) (by simp [Piece.isMark])
      | numeral x => exact absurd (hps _ rfl) (by simp [Piece.isMark])
      | quoted strokes => exact absurd (hps _ rfl) (by simp [Piece.isMark])

theorem dropWhile_gap {g text : List Char} {c : Char} (hg : Blank g) (hc : isGap c = false) :
    (g ++ c :: text).dropWhile isGap = c :: text := by
  rw [List.dropWhile_append_of_pos hg, List.dropWhile_cons, hc]
  rfl

/-- The first token of a text that a piece begins, and where the others are found. -/
theorem tokensWithin_piece {g rest : List Char} {p : Piece} (hg : Blank g)
    (hp : p.IsReadBefore rest) (bound : Nat) :
    ∃ t : Token, t.bare = ⟨p.lexeme, []⟩ ∧
      tokensWithin (bound + 1) (g ++ p.text ++ rest) = t :: tokensWithin bound rest := by
  obtain ⟨c, tail, htext, hc, hlexeme, hbehind⟩ := hp
  rcases hlex : lexemeAt c (tail ++ rest) with ⟨lexeme, behind⟩
  rw [hlex] at hlexeme hbehind
  obtain rfl : behind = some rest := hbehind
  refine ⟨⟨lexeme, tail ++ rest⟩, congrArg (Token.mk · []) hlexeme, ?_⟩
  rw [htext, List.append_assoc, List.cons_append]
  simp only [tokensWithin, dropWhile_gap hg hc, hlex]

/-- The tokens of a plain spelling are what its pieces say. -/
theorem Spelled.tokensWithin_bare {ps : List Piece} {text : List Char}
    (h : Spelled Blank Blank ps text) (hps : Orderly ps) {bound : Nat}
    (hbound : text.length < bound) :
    (tokensWithin bound text).map Token.bare =
      ps.map (fun p => ⟨p.lexeme, []⟩) ++ [⟨.finish, []⟩] := by
  induction h generalizing bound with
  | nil hblank =>
    obtain ⟨bound, rfl⟩ := Nat.exists_eq_add_of_lt hbound
    have hend : List.dropWhile isGap _ = [] := List.dropWhile_eq_nil_iff.mpr hblank
    simp [tokensWithin, hend, Token.bare, Lexeme.bare]
  | @cons g p ps rest hblank more ih =>
    obtain ⟨hnext, hrest⟩ := orderly_cons.mp hps
    have hread : p.IsReadBefore rest := Piece.isReadBefore <| by
      rintro x rfl
      exact more.endsNumeral hnext
    -- a piece has at least one character, so that the bound still holds behind it
    have hshorter : rest.length + 1 < bound := by
      obtain ⟨c, tail, htext, -⟩ := hread
      rw [htext] at hbound
      simp only [List.length_append, List.length_cons] at hbound
      omega
    obtain ⟨bound, rfl⟩ : ∃ n, bound = n + 1 := ⟨bound - 1, by omega⟩
    obtain ⟨t, ht, htokens⟩ := tokensWithin_piece hblank hread bound
    rw [htokens, List.map_cons, ht, ih hrest (Nat.lt_of_succ_lt_succ hshorter)]
    rfl

theorem Spelled.tokens_bare {ps : List Piece} {text : List Char} (h : Spelled Blank Blank ps text)
    (hps : Orderly ps) :
    (tokens text).map Token.bare = ps.map (fun p => ⟨p.lexeme, []⟩) ++ [⟨.finish, []⟩] :=
  h.tokensWithin_bare hps (Nat.lt_succ_self _)

end NameResolution.Json
