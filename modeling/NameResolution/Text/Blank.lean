import NameResolution.Text.Ranges

/-!
# Blank characters

The property White_Space: 25 characters in ten ranges, the same in every recent
version of the standard. Option values are trimmed by it.
-/

namespace NameResolution.Text

/-- The ranges of the property White_Space. -/
def blankRanges : List (Nat × Nat) :=
  [(0x09, 0x0D), (0x20, 0x20), (0x85, 0x85), (0xA0, 0xA0), (0x1680, 0x1680), (0x2000, 0x200A),
   (0x2028, 0x2029), (0x202F, 0x202F), (0x205F, 0x205F), (0x3000, 0x3000)]

/-- Is the character white space? -/
def isBlank (c : Char) : Bool := inRanges blankRanges c

/-- The text without the blank characters at either end. -/
def trimChars (s : List Char) : List Char :=
  ((s.dropWhile isBlank).reverse.dropWhile isBlank).reverse

/-- The string without the blank characters at either end. -/
def trim (s : String) : String := String.ofList (trimChars s.toList)

/-- Lower-cases the letters `A` to `Z` and keeps every other character. -/
def lowerAscii (s : String) : String := String.ofList (s.toList.map Char.toLower)

end NameResolution.Text
