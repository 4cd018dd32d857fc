import NameResolution.Json.Fault

/-!
# Numerals

A numeral is a sign, digits without a superfluous leading zero, and perhaps a
fraction and an exponent. It stands for a number in double precision; one whose
magnitude lies beyond that range has no value.
-/

namespace NameResolution.Json

/-- A numeral as it is written. -/
structure Numeral where
  negative : Bool
  whole : List Char
  fraction : Option (List Char)
  /-- The exponent's sign (is it negative?) and its digits. -/
  exponent : Option (Bool × List Char)
deriving Repr, DecidableEq

/-- The digits in front of a numeral's point. -/
def scanWhole : List Char → Except Fault (List Char × List Char)
  | [] => .error .unfinished
  | c :: rest =>
    if c = '0' then
      match rest with
      | d :: behind => if d.isDigit then .error (.malformed behind) else .ok (['0'], rest)
      | [] => .ok (['0'], [])
    else if c.isDigit then .ok (c :: rest.takeWhile Char.isDigit, rest.dropWhile Char.isDigit)
    else .error (.malformed rest)

/-- At least one digit. -/
def scanDigits : List Char → Except Fault (List Char × List Char)
  | [] => .error .unfinished
  | c :: rest =>
    if c.isDigit then .ok (c :: rest.takeWhile Char.isDigit, rest.dropWhile Char.isDigit)
    else .error (.malformed rest)

/-- A fraction, if the text goes on with a point. -/
def scanFraction : List Char → Except Fault (Option (List Char) × List Char)
  | '.' :: rest => (scanDigits rest).map fun (ds, behind) => (some ds, behind)
  | text => .ok (none, text)

/-- The sign of an exponent: is it negative? -/
def scanSign : List Char → Bool × List Char
  | '-' :: rest => (true, rest)
  | '+' :: rest => (false, rest)
  | text => (false, text)

/-- An exponent, if the text goes on with `e`. -/
def scanExponent : List Char → Except Fault (Option (Bool × List Char) × List Char)
  | [] => .ok (none, [])
  | c :: rest =>
    if c = 'e' ∨ c = 'E' then
      let (negative, digits) := scanSign rest
      (scanDigits digits).map fun (ds, behind) => (some (negative, ds), behind)
    else .ok (none, c :: rest)

/-- A numeral behind its sign, and what stands behind it. -/
def scanUnsigned (negative : Bool) (text : List Char) : Except Fault (Numeral × List Char) := do
  let (whole, text) ← scanWhole text
  let (fraction, text) ← scanFraction text
  let (exponent, text) ← scanExponent text
  return (⟨negative, whole, fraction, exponent⟩, text)

/-- A numeral, and what stands behind it. -/
def scanNumeral : List Char → Except Fault (Numeral × List Char)
  | '-' :: rest => scanUnsigned true rest
  | text => scanUnsigned false text

namespace Numeral

/-- The value of a string of digits behind the digits of `n`. -/
def digitsFrom (n : Nat) (ds : List Char) : Nat :=
  ds.foldl (fun n d => n * 10 + (d.toNat - 48)) n

/-- Takes digits on behind those of `n` while the value stays below `2 ^ 64`; gives the value and
the digits that were left over. -/
def fit (n : Nat) : List Char → Nat × List Char
  | [] => (n, [])
  | d :: ds =>
    if n * 10 + (d.toNat - 48) < Nat.pow 2 64 then fit (n * 10 + (d.toNat - 48)) ds
    else (n, d :: ds)

/-- The magnitude as `m * 10 ^ e`, cut to the leading digits that fit in 64 bits. -/
def magnitude (x : Numeral) : Nat × Int :=
  let (m, wholeLeft) := fit 0 x.whole
  let fraction := x.fraction.getD []
  let (m, fractionLeft) := fit m fraction
  let exponent : Int :=
    match x.exponent with
    | none => 0
    | some (negative, ds) => if negative then -(digitsFrom 0 ds : Int) else digitsFrom 0 ds
  (m, (wholeLeft.length : Int) - (fraction.length - fractionLeft.length : Nat) + exponent)

/-- The nearest natural number with a significand of 53 bits, ties to even. -/
def round53 (n : Nat) : Nat :=
  let k := n.log2 - 52
  let unit := Nat.pow 2 k
  let q := n / unit
  let r := n % unit
  (if unit < 2 * r ∨ (2 * r = unit ∧ q % 2 = 1 ∧ 0 < k) then q + 1 else q) * unit

/-- Is the magnitude within double precision? It is computed as a rounded product. -/
def inRange (x : Numeral) : Bool :=
  let (m, e) := x.magnitude
  e < 0 || m == 0 ||
    (e ≤ 308 && round53 m * round53 (Nat.pow 10 e.toNat) < Nat.pow 2 1024 - Nat.pow 2 970)

/-- The natural number below `2 ^ 32` that the numeral spells, without sign, point or exponent. -/
def toCount? (x : Numeral) : Option Nat :=
  if x.negative = false ∧ x.fraction = none ∧ x.exponent = none ∧
      digitsFrom 0 x.whole < Nat.pow 2 32
  then some (digitsFrom 0 x.whole)
  else none

end Numeral

end NameResolution.Json
