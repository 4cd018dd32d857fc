/-!
# Ranges of code points

Character properties are lists of closed ranges of code points, ascending and
apart. A list of ranges is read by testing each of them.
-/

namespace NameResolution.Text

/-- Does some range hold the code point of `c`? -/
def inRanges (ranges : List (Nat × Nat)) (c : Char) : Bool :=
  ranges.any fun r => r.1 ≤ c.toNat && c.toNat ≤ r.2

end NameResolution.Text
