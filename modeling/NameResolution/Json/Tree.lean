import NameResolution.Json.Token

/-!
# Documents as trees

The tree of a token list shows the document as far as it can be understood:
where no value, item or member can be made out, a `broken` leaf holds the
fault. A tree is built without regard to what is expected; whoever reads it
from left to right meets its first fault, of whatever kind, in the order of the
text.

Tokens and tree depart from what they stand for, one pass over the text that reads
the fields as it goes and stops at the first fault, be it of the text or of what is
expected there. Here the text is cut into tokens to its end, the tokens are put
into a tree, and what is expected is asked of the tree last. So a fault stays where
it was met, with the text behind it, and a token keeps two faults, one for being
read and one for being passed over: whoever reads the tree stops where the one pass
would stop.
-/

namespace NameResolution.Json

mutual

/-- A value. Arrays and objects keep the text behind their opening bracket. -/
inductive Tree where
  | word (value : Except Fault Word)
  | numeral (kept : Except Fault Numeral) (skipped : Option Fault)
  | quoted (kept : Except Fault (List Char)) (skipped : Option Fault)
  | array (behind : List Char) (items : Items)
  | object (behind : List Char) (members : Members)
  | broken (fault : Fault)

/-- What follows in an array. An item keeps the text behind its first character. -/
inductive Items where
  | close
  | item (behind : List Char) (value : Tree) (more : Items)
  | broken (fault : Fault)

/-- What follows in an object. -/
inductive Members where
  | close
  | member (key : Except Fault (List Char)) (keySkipped : Option Fault) (value : Tree)
      (more : Members)
  | broken (fault : Fault)

end

/-- The fault of a token that does not fit. -/
def Token.misfit (t : Token) : Fault :=
  match t.lexeme with
  | .finish => .unfinished
  | _ => .malformed t.behind

mutual

/-- The value at the head of the tokens, and the tokens behind it. -/
def valueAt : Nat → List Token → Tree × List Token
  | 0, ts => (.broken .unfinished, ts)
  | _ + 1, [] => (.broken .unfinished, [])
  | fuel + 1, t :: ts =>
    match t.lexeme with
    | .word w => (.word w, ts)
    | .numeral k s => (.numeral k s, ts)
    | .quoted k s => (.quoted k s, ts)
    | .openBracket => let (items, ts) := itemsAt fuel true ts; (.array t.behind items, ts)
    | .openBrace => let (members, ts) := membersAt fuel true ts; (.object t.behind members, ts)
    | _ => (.broken t.misfit, t :: ts)

/-- What follows in an array: behind its bracket (`start`), or behind an item. -/
def itemsAt : Nat → Bool → List Token → Items × List Token
  | 0, _, ts => (.broken .unfinished, ts)
  | _ + 1, _, [] => (.broken .unfinished, [])
  | fuel + 1, start, t :: ts =>
    match t.lexeme, start with
    | .closeBracket, _ => (.close, ts)
    | .finish, _ => (.broken .unfinished, t :: ts)
    | .comma, false => itemAt fuel ts
    | _, true => itemAt fuel (t :: ts)
    | _, false => (.broken t.misfit, t :: ts)

/-- An item, and what follows it. -/
def itemAt : Nat → List Token → Items × List Token
  | 0, ts => (.broken .unfinished, ts)
  | fuel + 1, ts =>
    let behind := match ts with | t :: _ => t.behind | [] => []
    let (value, ts) := valueAt fuel ts
    let (more, ts) := itemsAt fuel false ts
    (.item behind value more, ts)

/-- What follows in an object: behind its bracket (`start`), or behind a member. -/
def membersAt : Nat → Bool → List Token → Members × List Token
  | 0, _, ts => (.broken .unfinished, ts)
  | _ + 1, _, [] => (.broken .unfinished, [])
  | fuel + 1, start, t :: ts =>
    match t.lexeme, start with
    | .closeBrace, _ => (.close, ts)
    | .comma, false => memberAt fuel ts
    | _, true => memberAt fuel (t :: ts)
    | _, false => (.broken t.misfit, t :: ts)

/-- A member, and what follows it. -/
def memberAt : Nat → List Token → Members × List Token
  | 0, ts => (.broken .unfinished, ts)
  | _ + 1, [] => (.broken .unfinished, [])
  | fuel + 1, t :: ts =>
    match t.lexeme with
    | .quoted key skipped =>
      let (value, ts) :=
        match ts with
        | ⟨.colon, _⟩ :: ts => valueAt fuel ts
        | u :: ts => (.broken u.misfit, u :: ts)
        | [] => (.broken .unfinished, [])
      let (more, ts) := membersAt fuel false ts
      (.member key skipped value more, ts)
    | _ => (.broken t.misfit, t :: ts)

end

/-- The tree of a token list, and the tokens behind it. -/
def treeOf (ts : List Token) : Tree × List Token := valueAt (3 * ts.length + 3) ts

end NameResolution.Json
