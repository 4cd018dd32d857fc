import NameResolution.Text.Blank

/-!
# Documents with comments and trailing commas

Project settings are written in a relaxed form of JSON: `//` and `/* */`
comments may stand between tokens, and a comma may stand before a closing
bracket. `Jsonc.strip` leaves both out and keeps everything else, every newline
included, so that a character has as many lines before it as in the document
the user wrote. The text inside quotes is never touched.
-/

namespace NameResolution.Jsonc

/-- Where in a document a character stands. -/
inductive Mode where
  /-- Outside of quotes and comments. -/
  | plain
  | quoted
  | lineComment
  | blockComment
deriving Repr, DecidableEq

/-- Is a closing bracket the first character that is neither blank nor in a comment? -/
def closesNext : Mode → List Char → Bool
  | _, [] => false
  | .lineComment, c :: rest =>
    if c = '\n' then closesNext .plain rest else closesNext .lineComment rest
  | .blockComment, '*' :: '/' :: rest => closesNext .plain rest
  | .blockComment, _ :: rest => closesNext .blockComment rest
  | _, '/' :: '/' :: rest => closesNext .lineComment rest
  | _, '/' :: '*' :: rest => closesNext .blockComment rest
  | _, c :: rest => if Text.isBlank c then closesNext .plain rest else c = '}' ∨ c = ']'

/-- Leaves out comments, newlines excepted, and the commas that a closing bracket follows. -/
def stripFrom : Mode → List Char → List Char
  | _, [] => []
  | .quoted, '\\' :: c :: rest => '\\' :: c :: stripFrom .quoted rest
  | .quoted, c :: rest =>
    if c = '"' then c :: stripFrom .plain rest else c :: stripFrom .quoted rest
  | .lineComment, c :: rest =>
    if c = '\n' then c :: stripFrom .plain rest else stripFrom .lineComment rest
  | .blockComment, '*' :: '/' :: rest => stripFrom .plain rest
  | .blockComment, c :: rest =>
    if c = '\n' then c :: stripFrom .blockComment rest else stripFrom .blockComment rest
  | .plain, '/' :: '/' :: rest => stripFrom .lineComment rest
  | .plain, '/' :: '*' :: rest => stripFrom .blockComment rest
  | .plain, c :: rest =>
    if c = '"' then c :: stripFrom .quoted rest
    else if c = ',' ∧ closesNext .plain rest then stripFrom .plain rest
    else c :: stripFrom .plain rest

attribute [grind =] closesNext stripFrom

/-- The document without its comments and trailing commas. -/
def strip (document : List Char) : List Char := stripFrom .plain document

end NameResolution.Jsonc
