import NameResolution.Json.Fault

/-!
# Quoted texts

The body of a quoted text is read one character at a time. A backslash opens an
escape; `\u` takes four hexadecimal digits, and a character beyond the first
plane is written as two of them. A text that is only passed over is held to
less: its escapes need digits, but they need not stand for characters.
-/

namespace NameResolution.Json

/-- The value of a hexadecimal digit. -/
def hexDigit? (c : Char) : Option Nat :=
  if c.isDigit then some (c.toNat - 48)
  else if 'a' ≤ c ∧ c ≤ 'f' then some (c.toNat - 87)
  else if 'A' ≤ c ∧ c ≤ 'F' then some (c.toNat - 55)
  else none

/-- The character that a one-letter escape stands for. -/
def escaped? : Char → Option Char
  | '"' => some '"'
  | '\\' => some '\\'
  | '/' => some '/'
  | 'b' => some '\x08'
  | 'f' => some '\x0c'
  | 'n' => some '\n'
  | 'r' => some '\r'
  | 't' => some '\t'
  | _ => none

/-- Is the 16-bit unit the first half of a pair? -/
def isLead (unit : Nat) : Bool := 0xD800 ≤ unit && unit < 0xDC00

/-- Is the 16-bit unit the second half of a pair? -/
def isTrail (unit : Nat) : Bool := 0xDC00 ≤ unit && unit < 0xE000

/-- The character written as a pair of units. -/
def pairChar (lead trail : Nat) : Char :=
  Char.ofNat (0x10000 + (lead - 0xD800) * 0x400 + (trail - 0xDC00))

/-- The fault of a text that does not go on with hexadecimal digits where `bytes` of them are
due: it is unfinished when fewer bytes are left, and malformed behind them otherwise. -/
def missingDigits : Nat → List Char → Fault
  | 0, rest => .malformed rest
  | _, [] => .unfinished
  | bytes, c :: rest =>
    if c.utf8Size ≤ bytes then missingDigits (bytes - c.utf8Size) rest else .malformed rest

/-- What the next character of a quoted text belongs to. -/
inductive QuotedMode where
  | plain
  /-- Behind a backslash. -/
  | escape
  /-- Inside `\u`, after `digits` digits of the value `unit`, perhaps behind the lead of a pair. -/
  | digits (lead : Option Nat) (digits unit : Nat)
  /-- Behind the lead of a pair: a backslash is due. -/
  | pair (lead : Nat)
  /-- Behind the lead of a pair and a backslash: a `u` is due. -/
  | pairEscape (lead : Nat)
deriving Repr, DecidableEq

/-- Puts a character in front of a text that was read. -/
def withChar (c : Char) :
    Except Fault (List Char × List Char) → Except Fault (List Char × List Char)
  | .ok (cs, rest) => .ok (c :: cs, rest)
  | .error f => .error f

/-- Reads the rest of a quoted text: its characters, and what stands behind the closing quote. -/
def scanQuoted (use : Use) : QuotedMode → List Char → Except Fault (List Char × List Char)
  | _, [] => .error .unfinished
  | .plain, c :: rest =>
    if c = '"' then .ok ([], rest)
    else if c = '\\' then scanQuoted use .escape rest
    else if c.toNat < 0x20 then
      .error (.malformed (match use with | .kept => rest | .skipped => c :: rest))
    else withChar c (scanQuoted use .plain rest)
  | .escape, c :: rest =>
    if c = 'u' then scanQuoted use (.digits none 0 0) rest
    else match escaped? c with
      | some e => withChar e (scanQuoted use .plain rest)
      | none => .error (.malformed rest)
  | .digits lead n unit, c :: rest =>
    match hexDigit? c with
    | none => .error (missingDigits (4 - n) (c :: rest))
    | some d =>
      let unit := unit * 16 + d
      if n < 3 then scanQuoted use (.digits lead (n + 1) unit) rest
      else match use, lead with
        | .skipped, _ => withChar (Char.ofNat unit) (scanQuoted use .plain rest)
        | .kept, some l =>
          if isTrail unit then withChar (pairChar l unit) (scanQuoted use .plain rest)
          else .error (.malformed rest)
        | .kept, none =>
          if isLead unit then scanQuoted use (.pair unit) rest
          else if isTrail unit then .error (.malformed rest)
          else withChar (Char.ofNat unit) (scanQuoted use .plain rest)
  | .pair lead, c :: rest =>
    if c = '\\' then scanQuoted use (.pairEscape lead) rest else .error (.malformed rest)
  | .pairEscape lead, c :: rest =>
    if c = 'u' then scanQuoted use (.digits (some lead) 0 0) rest else .error (.malformed rest)

end NameResolution.Json
