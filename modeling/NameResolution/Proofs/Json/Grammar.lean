import Mathlib.Data.List.Chain
import NameResolution.Json.Token

/-!
# Documents as they are written

The grammar of JSON, independent of any reader. A document is written as a
sequence of *pieces*: marks, words, numerals and quoted texts, each with its exact
characters. A text *spells* pieces when it consists of them in their order, with
gaps in between; what may stand in a gap is a parameter.

In the pieces of a document two things never happen: a comma in front of a closing
bracket, and a numeral in front of anything but a mark (`Written.orderly`).
The first makes a trailing comma recognisable, the second the end of a numeral.
-/

namespace NameResolution.Json

/-- Characters that a test tells apart are two. -/
theorem ne_of_test {p : Char → Bool} {c d : Char} (hc : p c = true) (hd : p d = false) : c ≠ d := by
  rintro rfl
  rw [hc] at hd
  cases hd

def isHex (c : Char) : Bool :=
  c.isDigit || ('a' ≤ c && c ≤ 'f') || ('A' ≤ c && c ≤ 'F')

/-- What one character of a quoted text, or one half of it, is written as. -/
inductive Stroke where
  | plain (c : Char) (fits : 0x20 ≤ c.toNat ∧ c ≠ '"' ∧ c ≠ '\\')
  | letter (c : Char) (known : c ∈ ['"', '\\', '/', 'b', 'f', 'n', 'r', 't'])
  | code (a b c d : Char) (hex : isHex a ∧ isHex b ∧ isHex c ∧ isHex d)

def Stroke.text : Stroke → List Char
  | plain c _ => [c]
  | letter c _ => ['\\', c]
  | code a b c d _ => ['\\', 'u', a, b, c, d]

/-- A string of digits, at least one. -/
structure Digits where
  first : Char
  more : List Char
  isDigit : first.isDigit ∧ ∀ c ∈ more, c.isDigit

def Digits.text (ds : Digits) : List Char := ds.first :: ds.more

/-- Digits are written with digits. -/
theorem Digits.isDigit_of_mem {ds : Digits} {c : Char} (h : c ∈ ds.text) : c.isDigit = true := by
  rcases List.mem_cons.mp h with rfl | h
  · exact ds.isDigit.1
  · exact ds.isDigit.2 c h

/-- The sign in front of the digits of an exponent. -/
inductive ExponentSign where
  | unwritten
  | plus
  | minus

def ExponentSign.text : ExponentSign → List Char
  | unwritten => []
  | plus => ['+']
  | minus => ['-']

structure WrittenExponent where
  capital : Bool
  sign : ExponentSign
  digits : Digits

def WrittenExponent.text (e : WrittenExponent) : List Char :=
  (if e.capital then 'E' else 'e') :: (e.sign.text ++ e.digits.text)

/-- A numeral as it is written: a leading zero stands alone. -/
structure WrittenNumeral where
  negative : Bool
  whole : Digits
  noLeadingZero : whole.first = '0' → whole.more = []
  fraction : Option Digits
  exponent : Option WrittenExponent

namespace WrittenNumeral

def fractionText (x : WrittenNumeral) : List Char :=
  match x.fraction with
  | none => []
  | some ds => '.' :: ds.text

def exponentText (x : WrittenNumeral) : List Char :=
  match x.exponent with
  | none => []
  | some e => e.text

def text (x : WrittenNumeral) : List Char :=
  (if x.negative then ['-'] else []) ++ x.whole.text ++ x.fractionText ++ x.exponentText

/-- The characters of numerals are digits and a few others. -/
theorem isDigit_or_of_mem {x : WrittenNumeral} {c : Char} (h : c ∈ x.text) :
    c.isDigit = true ∨ c ∈ ['-', '+', '.', 'e', 'E'] := by
  simp only [text, List.mem_append] at h
  rcases h with ((h | h) | h) | h
  · cases hsign : x.negative with
    | true => exact .inr (by simp_all)
    | false => simp [hsign] at h
  · exact .inl (Digits.isDigit_of_mem h)
  · unfold fractionText at h
    split at h
    next => cases h
    next =>
      rcases List.mem_cons.mp h with rfl | h
      · exact .inr (by simp)
      · exact .inl (Digits.isDigit_of_mem h)
  · unfold exponentText at h
    split at h
    next => cases h
    next e _ =>
      rcases List.mem_cons.mp h with rfl | h
      · exact .inr (by cases e.capital <;> simp)
      · rcases List.mem_append.mp h with h | h
        · cases hsign : e.sign with
          | unwritten => simp [hsign, ExponentSign.text] at h
          | plus => exact .inr (by simp_all [ExponentSign.text])
          | minus => exact .inr (by simp_all [ExponentSign.text])
        · exact .inl (Digits.isDigit_of_mem h)

/-- A numeral begins with a digit, or with its sign. -/
theorem text_eq_cons (x : WrittenNumeral) :
    ∃ c tail, x.text = c :: tail ∧ (c = '-' ∨ c.isDigit = true) := by
  unfold text
  cases x.negative with
  | true => exact ⟨'-', _, rfl, .inl rfl⟩
  | false => exact ⟨x.whole.first, _, rfl, .inr x.whole.isDigit.1⟩

end WrittenNumeral

/-- The characters that stand for themselves. -/
inductive Mark where
  | openBrace
  | closeBrace
  | openBracket
  | closeBracket
  | colon
  | comma
deriving DecidableEq

namespace Mark

def char : Mark → Char
  | openBrace => '{'
  | closeBrace => '}'
  | openBracket => '['
  | closeBracket => ']'
  | colon => ':'
  | comma => ','

def isOpening : Mark → Bool
  | openBrace | openBracket => true
  | _ => false

def isClosing : Mark → Bool
  | closeBrace | closeBracket => true
  | _ => false

end Mark

def Word.text : Word → List Char
  | null => ['n', 'u', 'l', 'l']
  | yes => ['t', 'r', 'u', 'e']
  | no => ['f', 'a', 'l', 's', 'e']

/-- What a document is written with. -/
inductive Piece where
  | mark (m : Mark)
  | word (w : Word)
  | numeral (x : WrittenNumeral)
  | quoted (strokes : List Stroke)

namespace Piece

def text : Piece → List Char
  | mark m => [m.char]
  | word w => w.text
  | numeral x => x.text
  | quoted strokes => '"' :: (strokes.flatMap Stroke.text ++ ['"'])

def isOpening : Piece → Bool
  | mark m => m.isOpening
  | _ => false

def isClosing : Piece → Bool
  | mark m => m.isClosing
  | _ => false

def isMark : Piece → Bool
  | mark _ => true
  | _ => false

/-- May the second piece come right behind the first? This says of a document only what is needed
to find its pieces again. -/
def mayPrecede : Piece → Piece → Bool
  | numeral _, q => q.isMark
  | mark .comma, q => !q.isClosing
  | _, _ => true

end Piece

mutual

/-- A value as it is written. -/
inductive Written where
  | word (w : Word)
  | numeral (x : WrittenNumeral)
  | quoted (strokes : List Stroke)
  | array (items : WrittenItems)
  | object (members : WrittenMembers)

inductive WrittenItems where
  | nil
  | cons (value : Written) (more : WrittenItems)

inductive WrittenMembers where
  | nil
  | cons (key : List Stroke) (value : Written) (more : WrittenMembers)

end

mutual

def Written.pieces : Written → List Piece
  | .word w => [.word w]
  | .numeral x => [.numeral x]
  | .quoted strokes => [.quoted strokes]
  | .array .nil => [.mark .openBracket, .mark .closeBracket]
  | .array (.cons value more) =>
    .mark .openBracket :: (value.pieces ++ (more.pieces ++ [.mark .closeBracket]))
  | .object .nil => [.mark .openBrace, .mark .closeBrace]
  | .object (.cons key value more) =>
    .mark .openBrace :: .quoted key :: .mark .colon ::
      (value.pieces ++ (more.pieces ++ [.mark .closeBrace]))

/-- The pieces of the items behind the first, each item behind a comma. -/
def WrittenItems.pieces : WrittenItems → List Piece
  | .nil => []
  | .cons value more => .mark .comma :: (value.pieces ++ more.pieces)

/-- The pieces of the members behind the first, each member behind a comma. -/
def WrittenMembers.pieces : WrittenMembers → List Piece
  | .nil => []
  | .cons key value more =>
    .mark .comma :: .quoted key :: .mark .colon :: (value.pieces ++ more.pieces)

end

/-- Texts that consist of the pieces, in their order, with a gap before each and one at the
end. -/
inductive Spelled (gap last : List Char → Prop) : List Piece → List Char → Prop where
  | nil {g : List Char} (h : last g) : Spelled gap last [] g
  | cons {g : List Char} {p : Piece} {ps : List Piece} {rest : List Char} (h : gap g)
      (more : Spelled gap last ps rest) : Spelled gap last (p :: ps) (g ++ p.text ++ rest)

/-- What is spelled with some gaps is spelled where more gaps are allowed. -/
theorem Spelled.imp {gap gap' last last' : List Char → Prop} (hgap : ∀ g, gap g → gap' g)
    (hlast : ∀ g, last g → last' g) {ps : List Piece} {text : List Char}
    (h : Spelled gap last ps text) : Spelled gap' last' ps text := by
  induction h with
  | nil h => exact .nil (hlast _ h)
  | cons h _ ih => exact .cons (hgap _ h) ih

def Blank (g : List Char) : Prop := ∀ c ∈ g, isGap c = true

/-- The text is a plain spelling of the document: only blanks stand between its pieces. -/
def Written.IsPlain (doc : Written) (text : List Char) : Prop :=
  Spelled Blank Blank doc.pieces text

/-- A document may be spelled without any gap. -/
theorem Written.isPlain_flatMap (doc : Written) : doc.IsPlain (doc.pieces.flatMap Piece.text) := by
  have hblank : Blank [] := fun _ h => absurd h List.not_mem_nil
  unfold IsPlain
  induction doc.pieces with
  | nil => exact .nil hblank
  | cons p ps ih => exact .cons hblank ih

/-! ## Neighbours in a document -/

/-- Every piece may come where it comes. -/
def Orderly (ps : List Piece) : Prop := ps.IsChain fun p q => p.mayPrecede q = true

/-- Pieces are in order if the first may stand before the next, and the others are in order. -/
theorem orderly_cons {p : Piece} {ps : List Piece} :
    Orderly (p :: ps) ↔ (∀ q ∈ ps.head?, p.mayPrecede q = true) ∧ Orderly ps :=
  List.isChain_cons

/-- Behind anything but a comma or a numeral there may be anything. -/
theorem Orderly.cons {p : Piece} {ps : List Piece} (h : Orderly ps)
    (hp : ∀ q, p.mayPrecede q = true) : Orderly (p :: ps) :=
  orderly_cons.mpr ⟨fun q _ => hp q, h⟩

/-- Nothing, or something that begins with a mark. -/
def BeginsWithMark (ps : List Piece) : Prop := ∀ p ∈ ps.head?, p.isMark = true

/-- Pieces that begin with a mark do so. -/
theorem beginsWithMark_cons (m : Mark) (ps : List Piece) : BeginsWithMark (.mark m :: ps) := by
  intro p hp
  obtain rfl := Option.some.inj hp
  rfl

/-- A comma may come before pieces that do not begin with a closing bracket. -/
theorem orderly_comma {p : Piece} {ps : List Piece} (hp : p.isClosing = false)
    (h : Orderly (p :: ps)) : Orderly (.mark .comma :: p :: ps) := by
  refine orderly_cons.mpr ⟨fun q hq => ?_, h⟩
  obtain rfl := Option.some.inj hq
  show (!p.isClosing) = true
  rw [hp]
  rfl

/-- A value is written with a piece at least, and the first closes nothing. -/
theorem Written.pieces_eq_cons (v : Written) :
    ∃ p ps, v.pieces = p :: ps ∧ p.isClosing = false := by
  match v with
  | .word w => exact ⟨_, _, by rw [pieces], rfl⟩
  | .numeral x => exact ⟨_, _, by rw [pieces], rfl⟩
  | .quoted strokes => exact ⟨_, _, by rw [pieces], rfl⟩
  | .array .nil => exact ⟨_, _, by rw [pieces], rfl⟩
  | .array (.cons _ _) => exact ⟨_, _, by rw [pieces], rfl⟩
  | .object .nil => exact ⟨_, _, by rw [pieces], rfl⟩
  | .object (.cons _ _ _) => exact ⟨_, _, by rw [pieces], rfl⟩

/-- Items and members behind the first begin with a mark, when what follows them does. -/
theorem WrittenItems.beginsWithMark {k : List Piece} (hk : BeginsWithMark k) :
    ∀ items : WrittenItems, BeginsWithMark (items.pieces ++ k)
  | .nil => by rwa [pieces]
  | .cons value more => by
    rw [pieces]
    exact beginsWithMark_cons _ _

/-- Behind a member, a comma follows or what follows the members. -/
theorem WrittenMembers.beginsWithMark {k : List Piece} (hk : BeginsWithMark k) :
    ∀ members : WrittenMembers, BeginsWithMark (members.pieces ++ k)
  | .nil => by rwa [pieces]
  | .cons key value more => by
    rw [pieces]
    exact beginsWithMark_cons _ _

mutual

/-- A value is orderly in front of orderly pieces that begin with a mark. -/
theorem Written.orderly_append {k : List Piece} (hk : BeginsWithMark k) (h : Orderly k) :
    ∀ v : Written, Orderly (v.pieces ++ k)
  | .word w => by
    rw [Written.pieces]
    exact h.cons fun _ => rfl
  | .numeral x => by
    rw [Written.pieces]
    exact orderly_cons.mpr ⟨hk, h⟩
  | .quoted strokes => by
    rw [Written.pieces]
    exact h.cons fun _ => rfl
  | .array .nil => by
    rw [Written.pieces]
    exact (h.cons fun _ => rfl).cons fun _ => rfl
  | .array (.cons value more) => by
    -- from the end: the closing bracket, the items behind commas, the first item
    have hclose : Orderly (.mark .closeBracket :: k) := h.cons fun _ => rfl
    have hmore := more.orderly_append (beginsWithMark_cons _ k) hclose
    have hvalue := value.orderly_append (more.beginsWithMark (beginsWithMark_cons _ k)) hmore
    rw [Written.pieces, List.cons_append, List.append_assoc, List.append_assoc]
    exact hvalue.cons fun _ => rfl
  | .object .nil => by
    rw [Written.pieces]
    exact (h.cons fun _ => rfl).cons fun _ => rfl
  | .object (.cons key value more) => by
    have hclose : Orderly (.mark .closeBrace :: k) := h.cons fun _ => rfl
    have hmore := more.orderly_append (beginsWithMark_cons _ k) hclose
    have hvalue := value.orderly_append (more.beginsWithMark (beginsWithMark_cons _ k)) hmore
    rw [Written.pieces, List.cons_append, List.cons_append, List.cons_append, List.append_assoc,
      List.append_assoc]
    exact ((hvalue.cons fun _ => rfl).cons fun _ => rfl).cons fun _ => rfl

/-- Further items are written in order, before a mark. -/
theorem WrittenItems.orderly_append {k : List Piece} (hk : BeginsWithMark k) (h : Orderly k) :
    ∀ items : WrittenItems, Orderly (items.pieces ++ k)
  | .nil => by rwa [WrittenItems.pieces]
  | .cons value more => by
    have hvalue := value.orderly_append (more.beginsWithMark hk) (more.orderly_append hk h)
    -- the value's first piece stands right behind the comma
    obtain ⟨p, ps, hpieces, hp⟩ := value.pieces_eq_cons
    rw [hpieces] at hvalue
    rw [WrittenItems.pieces, List.cons_append, List.append_assoc, hpieces]
    exact orderly_comma hp hvalue

/-- Further members are written in order, before a mark. -/
theorem WrittenMembers.orderly_append {k : List Piece} (hk : BeginsWithMark k) (h : Orderly k) :
    ∀ members : WrittenMembers, Orderly (members.pieces ++ k)
  | .nil => by rwa [WrittenMembers.pieces]
  | .cons key value more => by
    have hvalue := value.orderly_append (more.beginsWithMark hk) (more.orderly_append hk h)
    rw [WrittenMembers.pieces, List.cons_append, List.cons_append, List.cons_append,
      List.append_assoc]
    exact orderly_comma rfl ((hvalue.cons fun _ => rfl).cons fun _ => rfl)

end

/-- A value is written in order. -/
theorem Written.orderly (v : Written) : Orderly v.pieces := by
  have h := v.orderly_append (k := []) (by simp [BeginsWithMark]) List.IsChain.nil
  rwa [List.append_nil] at h

/-! ## Places in a document -/

/-- Does an element end behind the piece? -/
def Piece.endsElement : Piece → Bool
  | mark m => m.isClosing
  | _ => true

/-- May the piece come behind the end of an element, or elsewhere? A comma comes only there, and a
word, a numeral or a quoted text never. -/
def Piece.mayFollow (ended : Bool) : Piece → Bool
  | mark .comma => ended
  | mark _ => true
  | _ => !ended

/-- Every piece comes where it may; `ended` says so of the first. -/
def WellPlaced (ended : Bool) : List Piece → Prop
  | [] => True
  | p :: ps => p.mayFollow ended = true ∧ WellPlaced p.endsElement ps

mutual

/-- A value is well placed where no element has ended, and an element ends behind it. -/
theorem Written.wellPlaced_append {k : List Piece} (h : WellPlaced true k) :
    ∀ v : Written, WellPlaced false (v.pieces ++ k)
  | .word w => by
    rw [Written.pieces]
    exact ⟨rfl, h⟩
  | .numeral x => by
    rw [Written.pieces]
    exact ⟨rfl, h⟩
  | .quoted strokes => by
    rw [Written.pieces]
    exact ⟨rfl, h⟩
  | .array .nil => by
    rw [Written.pieces]
    exact ⟨rfl, rfl, h⟩
  | .array (.cons value more) => by
    have hclose : WellPlaced true (.mark .closeBracket :: k) := ⟨rfl, h⟩
    have hvalue := value.wellPlaced_append (more.wellPlaced_append hclose)
    rw [Written.pieces, List.cons_append, List.append_assoc, List.append_assoc]
    exact ⟨rfl, hvalue⟩
  | .object .nil => by
    rw [Written.pieces]
    exact ⟨rfl, rfl, h⟩
  | .object (.cons key value more) => by
    have hclose : WellPlaced true (.mark .closeBrace :: k) := ⟨rfl, h⟩
    have hvalue := value.wellPlaced_append (more.wellPlaced_append hclose)
    rw [Written.pieces, List.cons_append, List.cons_append, List.cons_append, List.append_assoc,
      List.append_assoc]
    exact ⟨rfl, rfl, rfl, hvalue⟩

/-- Further items are well placed where an element has ended, and one ends behind them. -/
theorem WrittenItems.wellPlaced_append {k : List Piece} (h : WellPlaced true k) :
    ∀ items : WrittenItems, WellPlaced true (items.pieces ++ k)
  | .nil => by rwa [WrittenItems.pieces]
  | .cons value more => by
    have hvalue := value.wellPlaced_append (more.wellPlaced_append h)
    rw [WrittenItems.pieces, List.cons_append, List.append_assoc]
    exact ⟨rfl, hvalue⟩

/-- Further members are well placed where an element has ended, and one ends behind them. -/
theorem WrittenMembers.wellPlaced_append {k : List Piece} (h : WellPlaced true k) :
    ∀ members : WrittenMembers, WellPlaced true (members.pieces ++ k)
  | .nil => by rwa [WrittenMembers.pieces]
  | .cons key value more => by
    have hvalue := value.wellPlaced_append (more.wellPlaced_append h)
    rw [WrittenMembers.pieces, List.cons_append, List.cons_append, List.cons_append,
      List.append_assoc]
    exact ⟨rfl, rfl, rfl, hvalue⟩

end

/-- A value is well placed where no element has ended. -/
theorem Written.wellPlaced (v : Written) : WellPlaced false v.pieces := by
  have h := v.wellPlaced_append (k := []) trivial
  rwa [List.append_nil] at h

end NameResolution.Json
