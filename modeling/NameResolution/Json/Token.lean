import NameResolution.Json.Quoted
import NameResolution.Json.Numeral

/-!
# Tokens of a document

A text is cut into tokens without looking at their order. A token that is
itself at fault says so for either use, being read or being passed over; with a
token that not even passing over accepts the list ends. A text that is sound to
its end closes with the token `finish`.
-/

namespace NameResolution.Json

inductive Word where
  | null
  | yes
  | no
deriving Repr, DecidableEq

inductive Lexeme where
  | openBrace
  | closeBrace
  | openBracket
  | closeBracket
  | colon
  | comma
  | word (value : Except Fault Word)
  /-- A numeral, and the fault of passing over it. -/
  | numeral (kept : Except Fault Numeral) (skipped : Option Fault)
  /-- A quoted text, and the fault of passing over it. -/
  | quoted (kept : Except Fault (List Char)) (skipped : Option Fault)
  /-- A character that no token begins with. -/
  | stray
  /-- The end of the text. -/
  | finish

/-- A token and the text behind its first character. -/
structure Token where
  lexeme : Lexeme
  behind : List Char

/-- The blanks that may stand between tokens. -/
def isGap (c : Char) : Bool := c = ' ' || c = '\n' || c = '\t' || c = '\r'

/-- The rest of a word: the text has to go on with `letters`. -/
def scanWord (value : Word) : List Char → List Char → Except Fault (Word × List Char)
  | [], text => .ok (value, text)
  | _ :: _, [] => .error .unfinished
  | l :: letters, c :: rest =>
    if c = l then scanWord value letters rest else .error (.malformed rest)

/-- The fault of an outcome, if it is one. -/
def faultOf? {α : Type} : Except Fault α → Option Fault
  | .ok _ => none
  | .error f => some f

/-- Where the text goes on behind an outcome; nowhere after a fault. -/
def behind? {α : Type} : Except Fault (α × List Char) → Option (List Char)
  | .ok (_, rest) => some rest
  | .error _ => none

/-- A numeral that is read has to be within range. -/
def keptNumeral : Except Fault (Numeral × List Char) → Except Fault Numeral
  | .ok (x, rest) => if x.inRange then .ok x else .error (.malformed rest)
  | .error f => .error f

/-- A numeral that is passed over is malformed, not unfinished, where the text ends too early. -/
def skippedNumeral : Except Fault (Numeral × List Char) → Option Fault
  | .ok _ => none
  | .error .unfinished => some (.malformed [])
  | .error f => some f

/-- The lexeme that begins with `c`, and where the text goes on behind it. -/
def lexemeAt (c : Char) (rest : List Char) : Lexeme × Option (List Char) :=
  let word (value : Word) (letters : List Char) :=
    let outcome := scanWord value letters rest
    (Lexeme.word (outcome.map Prod.fst), behind? outcome)
  match c with
  | '{' => (.openBrace, some rest)
  | '}' => (.closeBrace, some rest)
  | '[' => (.openBracket, some rest)
  | ']' => (.closeBracket, some rest)
  | ':' => (.colon, some rest)
  | ',' => (.comma, some rest)
  | 'n' => word .null ['u', 'l', 'l']
  | 't' => word .yes ['r', 'u', 'e']
  | 'f' => word .no ['a', 'l', 's', 'e']
  | '"' =>
    let kept := scanQuoted .kept .plain rest
    let skipped := scanQuoted .skipped .plain rest
    (.quoted (kept.map Prod.fst) (faultOf? skipped), behind? skipped)
  | c =>
    if c = '-' ∨ c.isDigit then
      let outcome := scanNumeral (c :: rest)
      (.numeral (keptNumeral outcome) (skippedNumeral outcome), behind? outcome)
    else (.stray, none)

/-- The tokens of a text of at most `bound` characters. -/
def tokensWithin : Nat → List Char → List Token
  | 0, _ => [⟨.finish, []⟩]
  | bound + 1, text =>
    match text.dropWhile isGap with
    | [] => [⟨.finish, []⟩]
    | c :: rest =>
      match lexemeAt c rest with
      | (lexeme, some text) => ⟨lexeme, rest⟩ :: tokensWithin bound text
      | (lexeme, none) => [⟨lexeme, rest⟩]

/-- The tokens of a text. -/
def tokens (text : List Char) : List Token := tokensWithin (text.length + 1) text

end NameResolution.Json
