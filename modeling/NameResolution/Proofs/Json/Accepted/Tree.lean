import NameResolution.Proofs.Json.Accepted.Token

/-!
# A sound tree spells a document

A tree is sound when no part of it is broken or at fault. The text of a sound tree begins
with the pieces of a document (`valueAt_sound`): the tree is built along the grammar, and
a sound lexeme is a piece of the text.
-/

namespace NameResolution.Json

/-! ## Token lists -/

/-- The text begins with the pieces; what spells more of them behind spells them all. -/
def Leads (ps : List Piece) (text behind : List Char) : Prop :=
  ∀ qs, Spelled Blank Blank qs behind → Spelled Blank Blank (ps ++ qs) text

/-- One row of pieces leads on to the next. -/
theorem Leads.append {ps qs : List Piece} {text middle behind : List Char}
    (h : Leads ps text middle) (h' : Leads qs middle behind) : Leads (ps ++ qs) text behind := by
  intro rs hrs
  rw [List.append_assoc]
  exact h _ (h' rs hrs)

/-- One piece leads on to the next. -/
theorem Leads.cons {p : Piece} {qs : List Piece} {text middle behind : List Char}
    (h : Leads [p] text middle) (h' : Leads qs middle behind) : Leads (p :: qs) text behind :=
  h.append h'

/-- The tokens are those of the text. -/
def Lexed (text : List Char) (ts : List Token) : Prop :=
  ∃ bound, text.length < bound ∧ tokensWithin bound text = ts

/-- The tokens of a text are its tokens. -/
theorem lexed_tokens (text : List Char) : Lexed text (tokens text) :=
  ⟨_, Nat.lt_succ_self _, rfl⟩

/-- A text has a token, its end at least. -/
theorem Lexed.ne_nil {text : List Char} (h : Lexed text []) : False := by
  obtain ⟨bound, hbound, htokens⟩ := h
  obtain ⟨bound, rfl⟩ : ∃ n, bound = n + 1 := ⟨bound - 1, by omega⟩
  unfold tokensWithin at htokens
  split at htokens
  next => cases htokens
  next => split at htokens <;> cases htokens

/-- Something is written of every piece. -/
theorem Piece.text_eq_cons (p : Piece) : ∃ c tail, p.text = c :: tail := by
  cases p with
  | mark m => exact ⟨_, _, rfl⟩
  | word w => cases w <;> exact ⟨_, _, rfl⟩
  | quoted strokes => exact ⟨_, _, rfl⟩
  | numeral x =>
    obtain ⟨c, tail, htext, -⟩ := x.text_eq_cons
    exact ⟨c, tail, htext⟩

/-- The text begins with what a sound token shows, and the other tokens are those behind it. -/
theorem Lexed.head {text : List Char} {t : Token} {ts : List Token} (h : Lexed text (t :: ts))
    (hsound : t.lexeme.IsSound) :
    ∃ p behind, t.lexeme.Shows p ∧ Leads [p] text behind ∧ Lexed behind ts := by
  obtain ⟨bound, hbound, htokens⟩ := h
  obtain ⟨bound, rfl⟩ : ∃ n, bound = n + 1 := ⟨bound - 1, by omega⟩
  have htext := List.takeWhile_append_dropWhile (p := isGap) (l := text)
  unfold tokensWithin at htokens
  split at htokens
  next =>
    obtain ⟨rfl, -⟩ := List.cons.inj htokens
    exact hsound.elim
  next c rest hrest =>
    rw [hrest] at htext
    have hlexeme : t.lexeme = (lexemeAt c rest).1 := by
      split at htokens
      all_goals
        next heq =>
          obtain ⟨rfl, -⟩ := List.cons.inj htokens
          rw [heq]
    rw [hlexeme] at hsound
    obtain ⟨p, behind, hshows, hpiece, hbehind⟩ := lexemeAt_sound hsound
    refine ⟨p, behind, hlexeme ▸ hshows, fun qs hqs => ?_, ?_⟩
    · have hgap : Blank (text.takeWhile isGap) := fun c hc => List.mem_takeWhile_imp hc
      rw [← htext, hpiece, ← List.append_assoc]
      exact .cons hgap hqs
    · split at htokens
      next lexeme text' heq =>
        rw [heq] at hbehind
        obtain rfl := Option.some.inj hbehind
        obtain ⟨-, hts⟩ := List.cons.inj htokens
        -- a piece has at least one character, so that the bound still holds behind it
        obtain ⟨d, tail, hp⟩ := p.text_eq_cons
        have hlength := congrArg List.length htext
        rw [hpiece, hp] at hlength
        simp only [List.length_append, List.length_cons] at hlength
        exact ⟨bound, by omega, hts⟩
      next heq =>
        rw [heq] at hbehind
        cases hbehind

/-- Behind the last token there are only blanks. -/
theorem Lexed.finish {text behind : List Char} {ts : List Token}
    (h : Lexed text (⟨.finish, behind⟩ :: ts)) : Blank text := by
  obtain ⟨bound, hbound, htokens⟩ := h
  obtain ⟨bound, rfl⟩ : ∃ n, bound = n + 1 := ⟨bound - 1, by omega⟩
  unfold tokensWithin at htokens
  split at htokens
  next hrest => exact List.dropWhile_eq_nil_iff.mp hrest
  next c rest hrest =>
    split at htokens
    all_goals
      next heq =>
        obtain ⟨hfinish, -⟩ := List.cons.inj htokens
        exact absurd (by rw [heq]; exact congrArg Token.lexeme hfinish) (lexemeAt_ne_finish c rest)

/-! ## Trees -/

mutual

/-- No part of the tree is broken, or at fault for every use. -/
def Tree.IsSound : Tree → Prop
  | .word value => (Lexeme.word value).IsSound
  | .numeral kept skipped => (Lexeme.numeral kept skipped).IsSound
  | .quoted kept skipped => (Lexeme.quoted kept skipped).IsSound
  | .array _ items => items.IsSound
  | .object _ members => members.IsSound
  | .broken _ => False

def Items.IsSound : Items → Prop
  | .close => True
  | .item _ value more => value.IsSound ∧ more.IsSound
  | .broken _ => False

def Members.IsSound : Members → Prop
  | .close => True
  | .member key keySkipped value more =>
    (Lexeme.quoted key keySkipped).IsSound ∧ value.IsSound ∧ more.IsSound
  | .broken _ => False

end

/-- A quoted text or a numeral, a word or a mark at the head of the tokens is one in the text. -/
theorem Lexed.shown {text : List Char} {t : Token} {ts : List Token} (h : Lexed text (t :: ts))
    {lexeme : Lexeme} (ht : t.lexeme = lexeme) (hsound : lexeme.IsSound) :
    ∃ p behind, lexeme.Shows p ∧ Leads [p] text behind ∧ Lexed behind ts := by
  subst ht
  exact h.head hsound

/-- A sound member has a colon in front of its value. -/
theorem fieldAt_sound {fuel : Nat} {text : List Char} {ts : List Token} (h : Lexed text ts)
    (hsound : (fieldAt fuel ts).1.IsSound) :
    ∃ (behind : List Char) (rest : List Token), Leads [.mark .colon] text behind ∧
      Lexed behind rest ∧ fieldAt fuel ts = valueAt fuel rest := by
  match ts with
  | [] => exact hsound.elim
  | ⟨lexeme, place⟩ :: ts =>
    cases lexeme with
    | colon =>
      obtain ⟨_, behind, rfl, hleads, hlexed⟩ := h.head trivial
      exact ⟨behind, ts, hleads, hlexed, rfl⟩
    | _ => exact hsound.elim

mutual

/-- Where a sound value is made out, a value is written in front. -/
theorem valueAt_sound : ∀ (fuel : Nat) {text : List Char} {ts : List Token}, Lexed text ts →
    (valueAt fuel ts).1.IsSound → ∃ (v : Written) (behind : List Char),
      Leads v.pieces text behind ∧ Lexed behind (valueAt fuel ts).2
  | 0, _, _, _, hsound => hsound.elim
  | _ + 1, _, [], _, hsound => hsound.elim
  | fuel + 1, text, t :: ts, h, hsound => by
    rw [valueAt] at hsound ⊢
    split at hsound
    next w ht =>
      obtain ⟨_, behind, ⟨w, -, rfl⟩, hleads, hlexed⟩ := h.shown ht hsound
      exact ⟨.word w, behind, by rwa [Written.pieces], hlexed⟩
    next k s ht =>
      obtain ⟨_, behind, ⟨x, rfl⟩, hleads, hlexed⟩ := h.shown ht hsound
      exact ⟨.numeral x, behind, by rwa [Written.pieces], hlexed⟩
    next k s ht =>
      obtain ⟨_, behind, ⟨strokes, rfl⟩, hleads, hlexed⟩ := h.shown ht hsound
      exact ⟨.quoted strokes, behind, by rwa [Written.pieces], hlexed⟩
    next ht =>
      obtain ⟨_, middle, rfl, hleads, hlexed⟩ := h.shown ht trivial
      obtain ⟨v, ps, behind, hv, hleads', hlexed'⟩ := itemsAt_start_sound fuel hlexed hsound
      exact ⟨v, behind, hv ▸ hleads.cons hleads', hlexed'⟩
    next ht =>
      obtain ⟨_, middle, rfl, hleads, hlexed⟩ := h.shown ht trivial
      obtain ⟨v, ps, behind, hv, hleads', hlexed'⟩ := membersAt_start_sound fuel hlexed hsound
      exact ⟨v, behind, hv ▸ hleads.cons hleads', hlexed'⟩
    next => exact hsound.elim

/-- Behind an opening bracket: nothing or items, and the closing bracket. -/
theorem itemsAt_start_sound : ∀ (fuel : Nat) {text : List Char} {ts : List Token}, Lexed text ts →
    (itemsAt fuel true ts).1.IsSound → ∃ (v : Written) (ps : List Piece) (behind : List Char),
      v.pieces = .mark .openBracket :: ps ∧ Leads ps text behind ∧
        Lexed behind (itemsAt fuel true ts).2
  | 0, _, _, _, hsound => hsound.elim
  | _ + 1, _, [], _, hsound => hsound.elim
  | fuel + 1, text, t :: ts, h, hsound => by
    unfold itemsAt at hsound ⊢
    split at hsound
    next ht =>
      obtain ⟨_, behind, rfl, hleads, hlexed⟩ := h.shown ht trivial
      exact ⟨.array .nil, _, behind, by rw [Written.pieces], hleads, hlexed⟩
    next => exact hsound.elim
    next hfalse => cases hfalse
    next =>
      obtain ⟨v, items, behind, hleads, hlexed⟩ := itemAt_sound fuel h hsound
      exact ⟨.array (.cons v items), _, behind, by rw [Written.pieces], hleads, hlexed⟩
    next => exact hsound.elim

/-- Behind an item: more items, and the closing bracket. -/
theorem itemsAt_sound : ∀ (fuel : Nat) {text : List Char} {ts : List Token}, Lexed text ts →
    (itemsAt fuel false ts).1.IsSound → ∃ (items : WrittenItems) (behind : List Char),
      Leads (items.pieces ++ [.mark .closeBracket]) text behind ∧
        Lexed behind (itemsAt fuel false ts).2
  | 0, _, _, _, hsound => hsound.elim
  | _ + 1, _, [], _, hsound => hsound.elim
  | fuel + 1, text, t :: ts, h, hsound => by
    unfold itemsAt at hsound ⊢
    split at hsound
    next ht =>
      obtain ⟨_, behind, rfl, hleads, hlexed⟩ := h.shown ht trivial
      exact ⟨.nil, behind, by rwa [WrittenItems.pieces, List.nil_append], hlexed⟩
    next => exact hsound.elim
    next ht _ =>
      obtain ⟨_, middle, rfl, hleads, hlexed⟩ := h.shown ht trivial
      obtain ⟨v, items, behind, hleads', hlexed'⟩ := itemAt_sound fuel hlexed hsound
      refine ⟨.cons v items, behind, ?_, hlexed'⟩
      rw [WrittenItems.pieces, List.cons_append, List.append_assoc]
      exact hleads.cons hleads'
    next htrue _ _ => cases htrue
    next => exact hsound.elim

/-- Where sound items are made out, items are written in front, up to the bracket. -/
theorem itemAt_sound : ∀ (fuel : Nat) {text : List Char} {ts : List Token}, Lexed text ts →
    (itemAt fuel ts).1.IsSound → ∃ (v : Written) (items : WrittenItems) (behind : List Char),
      Leads (v.pieces ++ (items.pieces ++ [.mark .closeBracket])) text behind ∧
        Lexed behind (itemAt fuel ts).2
  | 0, _, _, _, hsound => hsound.elim
  | fuel + 1, text, ts, h, hsound => by
    obtain ⟨hvalue, hmore⟩ := hsound
    obtain ⟨v, middle, hv, hlexed⟩ := valueAt_sound fuel h hvalue
    obtain ⟨items, behind, hitems, hlexed'⟩ := itemsAt_sound fuel hlexed hmore
    exact ⟨v, items, behind, hv.append hitems, hlexed'⟩

/-- Behind an opening brace: nothing or members, and the closing brace. -/
theorem membersAt_start_sound : ∀ (fuel : Nat) {text : List Char} {ts : List Token},
    Lexed text ts → (membersAt fuel true ts).1.IsSound →
    ∃ (v : Written) (ps : List Piece) (behind : List Char),
      v.pieces = .mark .openBrace :: ps ∧ Leads ps text behind ∧
        Lexed behind (membersAt fuel true ts).2
  | 0, _, _, _, hsound => hsound.elim
  | _ + 1, _, [], _, hsound => hsound.elim
  | fuel + 1, text, t :: ts, h, hsound => by
    unfold membersAt at hsound ⊢
    split at hsound
    next ht =>
      obtain ⟨_, behind, rfl, hleads, hlexed⟩ := h.shown ht trivial
      exact ⟨.object .nil, _, behind, by rw [Written.pieces], hleads, hlexed⟩
    next hfalse => cases hfalse
    next =>
      obtain ⟨key, v, members, behind, hleads, hlexed⟩ := memberAt_sound fuel h hsound
      exact ⟨.object (.cons key v members), _, behind, by rw [Written.pieces], hleads, hlexed⟩
    next => exact hsound.elim

/-- Behind a member: more members, and the closing brace. -/
theorem membersAt_sound : ∀ (fuel : Nat) {text : List Char} {ts : List Token}, Lexed text ts →
    (membersAt fuel false ts).1.IsSound → ∃ (members : WrittenMembers) (behind : List Char),
      Leads (members.pieces ++ [.mark .closeBrace]) text behind ∧
        Lexed behind (membersAt fuel false ts).2
  | 0, _, _, _, hsound => hsound.elim
  | _ + 1, _, [], _, hsound => hsound.elim
  | fuel + 1, text, t :: ts, h, hsound => by
    unfold membersAt at hsound ⊢
    split at hsound
    next ht =>
      obtain ⟨_, behind, rfl, hleads, hlexed⟩ := h.shown ht trivial
      exact ⟨.nil, behind, by rwa [WrittenMembers.pieces, List.nil_append], hlexed⟩
    next ht _ =>
      obtain ⟨_, middle, rfl, hleads, hlexed⟩ := h.shown ht trivial
      obtain ⟨key, v, members, behind, hleads', hlexed'⟩ := memberAt_sound fuel hlexed hsound
      refine ⟨.cons key v members, behind, ?_, hlexed'⟩
      rw [WrittenMembers.pieces, List.cons_append, List.cons_append, List.cons_append,
        List.append_assoc]
      exact hleads.cons hleads'
    next htrue _ => cases htrue
    next => exact hsound.elim

/-- Where sound members are made out, members are written in front, up to the brace. -/
theorem memberAt_sound : ∀ (fuel : Nat) {text : List Char} {ts : List Token}, Lexed text ts →
    (memberAt fuel ts).1.IsSound →
    ∃ (key : List Stroke) (v : Written) (members : WrittenMembers) (behind : List Char),
      Leads (.quoted key :: .mark .colon :: (v.pieces ++ (members.pieces ++ [.mark .closeBrace])))
        text behind ∧ Lexed behind (memberAt fuel ts).2
  | 0, _, _, _, hsound => hsound.elim
  | _ + 1, _, [], _, hsound => hsound.elim
  | fuel + 1, text, ⟨lexeme, place⟩ :: ts, h, hsound => by
    cases lexeme with
    | quoted k s =>
      rw [memberAt_quoted] at hsound ⊢
      obtain ⟨hkey, hvalue, hmore⟩ := hsound
      -- the key, the colon, the value and the members behind it, one behind the other
      obtain ⟨_, afterKey, ⟨key, rfl⟩, hleads, hlexed⟩ := h.head hkey
      obtain ⟨afterColon, rest, hcolon, hrest, hfield⟩ := fieldAt_sound hlexed hvalue
      rw [hfield] at hvalue hmore ⊢
      obtain ⟨v, afterValue, hv, hlexed'⟩ := valueAt_sound fuel hrest hvalue
      obtain ⟨members, behind, hmembers, hlexed''⟩ := membersAt_sound fuel hlexed' hmore
      exact ⟨key, v, members, behind, hleads.cons (hcolon.cons (hv.append hmembers)), hlexed''⟩
    | _ => exact hsound.elim

end

/-- A text whose tree is sound and that has nothing behind it is a plain spelling of a
document. -/
theorem isPlain_of_sound {text : List Char} (hsound : (treeOf (tokens text)).1.IsSound)
    (hfinish : ∀ t ∈ (treeOf (tokens text)).2.head?, t.lexeme = .finish) :
    ∃ doc : Written, doc.IsPlain text := by
  obtain ⟨doc, behind, hleads, hlexed⟩ := valueAt_sound _ (lexed_tokens text) hsound
  rw [← treeOf] at hlexed
  have hblank : Blank behind := by
    match hrest : (treeOf (tokens text)).2 with
    | [] => exact (hrest ▸ hlexed).ne_nil.elim
    | ⟨lexeme, place⟩ :: rest =>
      rw [hrest] at hlexed hfinish
      obtain rfl : lexeme = .finish := hfinish _ rfl
      exact hlexed.finish
  have hspelled := hleads [] (.nil hblank)
  rw [List.append_nil] at hspelled
  exact ⟨doc, hspelled⟩

end NameResolution.Json
