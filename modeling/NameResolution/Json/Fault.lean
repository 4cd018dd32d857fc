/-!
# Faults of a document

What keeps a text from being read as a document of the expected kind. A
malformed text is so at a character; the fault keeps what stands behind that
character, from which the line is counted.
-/

namespace NameResolution.Json

/-- Why a text cannot be read. -/
inductive Fault where
  /-- A character does not fit; `behind` is the text behind it. -/
  | malformed (behind : List Char)
  /-- The text ends too early. -/
  | unfinished
  /-- Well formed so far, but not of the expected kind. -/
  | mistyped
  /-- A switch was given as a text that is neither `true` nor `false`. -/
  | badFlag (text : String)
deriving Repr, DecidableEq

/-- A fault as it is reported: a place in the text becomes a line. -/
inductive Report where
  | malformed (line : Nat)
  | unfinished (line : Nat)
  | mistyped
  | badFlag (text : String)
deriving Repr, DecidableEq

/-- The line of a character of `text`, when `behind` is the text behind it. -/
def lineOf (text behind : List Char) : Nat := 1 + text.count '\n' - behind.count '\n'

/-- The report of a fault found in `text`. -/
def Fault.report (text : List Char) : Fault → Report
  | .malformed behind => .malformed (lineOf text behind)
  | .unfinished => .unfinished (lineOf text [])
  | .mistyped => .mistyped
  | .badFlag t => .badFlag t

/-- Whether a part of a document is read for its value, or only passed over. -/
inductive Use where
  | kept
  | skipped
deriving Repr, DecidableEq

end NameResolution.Json
