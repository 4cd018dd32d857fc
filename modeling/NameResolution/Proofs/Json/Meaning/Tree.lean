import NameResolution.Json.Tree
import NameResolution.Proofs.Json.Meaning.Characters
import NameResolution.Proofs.Json.Token

/-!
# The tree of a document

Every document has a tree, and it is made out from the pieces of the document whatever stands behind
them (`valueAt_pieces`). The fuel counts steps, and a piece takes three of them at most: one
for itself, and two for the item or member that begins with it.
-/

namespace NameResolution.Json

mutual

/-- The tree of a value, places aside. -/
def Written.tree : Written → Tree
  | .word w => .word (.ok w)
  | .numeral x => .numeral (bared (keptNumeral (.ok (x.numeral, [])))) none
  | .quoted strokes => .quoted (keptText strokes) none
  | .array items => .array [] items.tree
  | .object members => .object [] members.tree

def WrittenItems.tree : WrittenItems → Items
  | .nil => .close
  | .cons value more => .item [] value.tree more.tree

def WrittenMembers.tree : WrittenMembers → Members
  | .nil => .close
  | .cons key value more => .member (keptText key) none value.tree more.tree

end

/-- The token that the reader makes of a piece, places aside. -/
def Piece.token (p : Piece) : Token := ⟨p.lexeme, []⟩

theorem valueAt_openBracket (fuel : ℕ) (ts : List Token) :
    valueAt (fuel + 1) ((Piece.mark .openBracket).token :: ts) =
      (.array [] (itemsAt fuel true ts).1, (itemsAt fuel true ts).2) := rfl

theorem valueAt_openBrace (fuel : ℕ) (ts : List Token) :
    valueAt (fuel + 1) ((Piece.mark .openBrace).token :: ts) =
      (.object [] (membersAt fuel true ts).1, (membersAt fuel true ts).2) := rfl

/-- Behind its bracket an array goes on with a value, if it does not end. -/
theorem itemsAt_start (value : Written) (fuel : ℕ) (ts : List Token) :
    itemsAt (fuel + 1) true (value.pieces.map Piece.token ++ ts) =
      itemAt fuel (value.pieces.map Piece.token ++ ts) := by
  obtain ⟨p, ps, hpieces, hp⟩ := value.pieces_eq_cons
  rw [hpieces]
  cases p with
  | mark m =>
    cases m with
    | closeBrace => cases hp
    | closeBracket => cases hp
    | _ => rfl
  | _ => rfl

/-- Behind its brace an object goes on with a key, if it does not end. -/
theorem membersAt_start (key : List Stroke) (fuel : ℕ) (ts : List Token) :
    membersAt (fuel + 1) true ((Piece.quoted key).token :: ts) =
      memberAt fuel ((Piece.quoted key).token :: ts) := rfl

/-- An item is a value, and what follows it. -/
theorem itemAt_pieces {value : Written} {more : WrittenItems} {fuel : ℕ}
    {behind rest : List Token}
    (hvalue : valueAt fuel (value.pieces.map Piece.token ++ behind) = (value.tree, behind))
    (hmore : itemsAt fuel false behind = (more.tree, rest)) :
    itemAt (fuel + 1) (value.pieces.map Piece.token ++ behind) =
      (.item [] value.tree more.tree, rest) := by
  -- the item is placed at its first token, which is bare
  obtain ⟨p, ps, hpieces, -⟩ := value.pieces_eq_cons
  rw [hpieces, List.map_cons, List.cons_append] at hvalue ⊢
  simp only [itemAt, hvalue, hmore]
  rfl

/-- A member is a key, a colon and a value, and what follows it. -/
theorem memberAt_pieces {key : List Stroke} {value : Written} {more : WrittenMembers} {fuel : ℕ}
    {ts behind rest : List Token} (hvalue : valueAt fuel ts = (value.tree, behind))
    (hmore : membersAt fuel false behind = (more.tree, rest)) :
    memberAt (fuel + 1) ((Piece.quoted key).token :: (Piece.mark .colon).token :: ts) =
      (.member (keptText key) none value.tree more.tree, rest) := by
  have hfield : fieldAt fuel ((Piece.mark .colon).token :: ts) = (value.tree, behind) := hvalue
  show memberAt (fuel + 1)
    (⟨.quoted (keptText key) none, []⟩ :: (Piece.mark .colon).token :: ts) = _
  rw [memberAt_quoted, hfield, hmore]

mutual

/-- A value is made out from its pieces, whatever stands behind them. -/
theorem Written.valueAt_pieces : ∀ (v : Written) (fuel : ℕ) (rest : List Token),
    3 * v.pieces.length ≤ fuel →
    valueAt fuel (v.pieces.map Piece.token ++ rest) = (v.tree, rest)
  | v, 0, rest, h => by
    -- a value has a piece
    obtain ⟨p, ps, hpieces, -⟩ := v.pieces_eq_cons
    rw [hpieces, List.length_cons] at h
    omega
  | .word w, fuel + 1, rest, _ => by
    rw [Written.pieces]
    rfl
  | .numeral x, fuel + 1, rest, _ => by
    rw [Written.pieces]
    rfl
  | .quoted strokes, fuel + 1, rest, _ => by
    rw [Written.pieces]
    rfl
  | .array .nil, fuel + 1, rest, h => by
    rw [Written.pieces] at h ⊢
    obtain ⟨fuel, rfl⟩ : ∃ n, fuel = n + 1 := ⟨fuel - 1, by simp at h; omega⟩
    rfl
  | .array (.cons value more), fuel + 1, rest, h => by
    rw [Written.pieces] at h ⊢
    simp only [List.length_cons, List.length_append, List.length_nil] at h
    obtain ⟨fuel, rfl⟩ : ∃ n, fuel = n + 2 := ⟨fuel - 2, by omega⟩
    have hmore := more.itemsAt_pieces fuel rest (by omega)
    have hvalue := value.valueAt_pieces fuel
      (more.pieces.map Piece.token ++ (Piece.mark .closeBracket).token :: rest) (by omega)
    simp only [List.map_cons, List.map_append, List.cons_append, List.append_assoc, List.map_nil,
      List.nil_append]
    rw [valueAt_openBracket, itemsAt_start, itemAt_pieces hvalue hmore]
    rfl
  | .object .nil, fuel + 1, rest, h => by
    rw [Written.pieces] at h ⊢
    obtain ⟨fuel, rfl⟩ : ∃ n, fuel = n + 1 := ⟨fuel - 1, by simp at h; omega⟩
    rfl
  | .object (.cons key value more), fuel + 1, rest, h => by
    rw [Written.pieces] at h ⊢
    simp only [List.length_cons, List.length_append, List.length_nil] at h
    obtain ⟨fuel, rfl⟩ : ∃ n, fuel = n + 2 := ⟨fuel - 2, by omega⟩
    have hmore := more.membersAt_pieces fuel rest (by omega)
    have hvalue := value.valueAt_pieces fuel
      (more.pieces.map Piece.token ++ (Piece.mark .closeBrace).token :: rest) (by omega)
    simp only [List.map_cons, List.map_append, List.cons_append, List.append_assoc, List.map_nil,
      List.nil_append]
    rw [valueAt_openBrace, membersAt_start, memberAt_pieces hvalue hmore]
    rfl

/-- The items behind the first are made out from their pieces, up to the closing bracket. -/
theorem WrittenItems.itemsAt_pieces : ∀ (items : WrittenItems) (fuel : ℕ) (rest : List Token),
    3 * items.pieces.length + 1 ≤ fuel →
    itemsAt fuel false (items.pieces.map Piece.token ++ (Piece.mark .closeBracket).token :: rest) =
      (items.tree, rest)
  | _, 0, _, h => absurd h (Nat.not_succ_le_zero _)
  | .nil, fuel + 1, rest, _ => by
    rw [WrittenItems.pieces]
    rfl
  | .cons value more, fuel + 1, rest, h => by
    rw [WrittenItems.pieces] at h ⊢
    simp only [List.length_cons, List.length_append] at h
    obtain ⟨fuel, rfl⟩ : ∃ n, fuel = n + 1 := ⟨fuel - 1, by omega⟩
    have hmore := more.itemsAt_pieces fuel rest (by omega)
    have hvalue := value.valueAt_pieces fuel
      (more.pieces.map Piece.token ++ (Piece.mark .closeBracket).token :: rest) (by omega)
    rw [List.map_cons, List.map_append, List.cons_append, List.append_assoc]
    exact itemAt_pieces hvalue hmore

/-- The members behind the first are made out from their pieces, up to the closing brace. -/
theorem WrittenMembers.membersAt_pieces : ∀ (members : WrittenMembers) (fuel : ℕ)
    (rest : List Token), 3 * members.pieces.length + 1 ≤ fuel →
    membersAt fuel false
      (members.pieces.map Piece.token ++ (Piece.mark .closeBrace).token :: rest) =
      (members.tree, rest)
  | _, 0, _, h => absurd h (Nat.not_succ_le_zero _)
  | .nil, fuel + 1, rest, _ => by
    rw [WrittenMembers.pieces]
    rfl
  | .cons key value more, fuel + 1, rest, h => by
    rw [WrittenMembers.pieces] at h ⊢
    simp only [List.length_cons, List.length_append] at h
    obtain ⟨fuel, rfl⟩ : ∃ n, fuel = n + 1 := ⟨fuel - 1, by omega⟩
    have hmore := more.membersAt_pieces fuel rest (by omega)
    have hvalue := value.valueAt_pieces fuel
      (more.pieces.map Piece.token ++ (Piece.mark .closeBrace).token :: rest) (by omega)
    rw [List.map_cons, List.map_cons, List.map_cons, List.map_append, List.cons_append,
      List.cons_append, List.cons_append, List.append_assoc]
    exact memberAt_pieces hvalue hmore

end

/-- The tree of a plain spelling, places aside, is that of the document, and only the end is left
behind it. -/
theorem Written.IsPlain.treeOf_tokens {doc : Written} {text : List Char} (h : doc.IsPlain text) :
    treeOf ((tokens text).map Token.bare) = (doc.tree, [⟨.finish, []⟩]) := by
  have htokens : (tokens text).map Token.bare =
      doc.pieces.map Piece.token ++ [⟨.finish, []⟩] := h.tokens_bare doc.orderly
  rw [htokens, treeOf]
  apply doc.valueAt_pieces
  rw [List.length_append, List.length_map]
  omega

end NameResolution.Json
