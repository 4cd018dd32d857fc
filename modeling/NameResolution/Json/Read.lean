import NameResolution.Json.Tree

/-!
# Reading values off a tree

Readers for the kinds of values that documents are made of. A reader meets the
faults of a tree in the order of the text: a plain value at a place for another
kind is looked at whole before its kind is refused, an array or object is
refused at its bracket.
-/

namespace NameResolution.Json

/-- The fault of an outcome that may have none. -/
def failIf : Option Fault → Except Fault Unit
  | none => .ok ()
  | some f => .error f

mutual

/-- Passes over a value: it has to be well formed, and nothing else. -/
def Tree.skip : Tree → Except Fault Unit
  | .word w => w.map fun _ => ()
  | .numeral _ s => failIf s
  | .quoted _ s => failIf s
  | .array _ items => items.skip
  | .object _ members => members.skip
  | .broken f => .error f

def Items.skip : Items → Except Fault Unit
  | .close => .ok ()
  | .item _ value more => do
    value.skip
    more.skip
  | .broken f => .error f

def Members.skip : Members → Except Fault Unit
  | .close => .ok ()
  | .member _ keySkipped value more => do
    failIf keySkipped
    value.skip
    more.skip
  | .broken f => .error f

end

mutual

/-- Reads a value of any kind for its content; arrays and objects may nest less than `budget`
deep. -/
def Tree.readAny (budget : Nat) : Tree → Except Fault Unit
  | .word w => w.map fun _ => ()
  | .numeral k _ => k.map fun _ => ()
  | .quoted k _ => k.map fun _ => ()
  | .array behind items =>
    if budget ≤ 1 then .error (.malformed behind) else items.readAny (budget - 1)
  | .object behind members =>
    if budget ≤ 1 then .error (.malformed behind) else members.readAny (budget - 1)
  | .broken f => .error f

def Items.readAny (budget : Nat) : Items → Except Fault Unit
  | .close => .ok ()
  | .item _ value more => do
    value.readAny budget
    more.readAny budget
  | .broken f => .error f

def Members.readAny (budget : Nat) : Members → Except Fault Unit
  | .close => .ok ()
  | .member key _ value more => do
    let _ ← key
    value.readAny budget
    more.readAny budget
  | .broken f => .error f

end

namespace Tree

/-- The fault of a value at a place for another kind of value. -/
def wrongKind : Tree → Fault
  | .word (.error f) => f
  | .numeral (.error f) _ => f
  | .quoted (.error f) _ => f
  | .broken f => f
  | _ => .mistyped

/-- Reads a value that may be absent, which `null` says. -/
def readOptional {α : Type} (read : Tree → Except Fault α) : Tree → Except Fault (Option α)
  | .word (.ok .null) => .ok none
  | t => some <$> read t

def readString : Tree → Except Fault String
  | .quoted kept _ => kept.map String.ofList
  | t => .error t.wrongKind

/-- Reads a natural number below `2 ^ 32`. -/
def readCount : Tree → Except Fault Nat
  | .numeral (.ok x) _ =>
    match x.toCount? with
    | some n => .ok n
    | none => .error .mistyped
  | t => .error t.wrongKind

end Tree

/-- Reads the items of an array one by one. -/
def Items.readEach {α : Type} (read : Tree → Except Fault α) : Items → Except Fault (List α)
  | .close => .ok []
  | .item _ value more => do
    let a ← read value
    let rest ← more.readEach read
    return a :: rest
  | .broken f => .error f

/-- Reads the members of an object one by one, keys and values. -/
def Members.readEach {α : Type} (read : Tree → Except Fault α) :
    Members → Except Fault (List (String × α))
  | .close => .ok []
  | .member key _ value more => do
    let key ← key
    let a ← read value
    let rest ← more.readEach read
    return (String.ofList key, a) :: rest
  | .broken f => .error f

namespace Tree

/-- Reads an array whose items are all of one kind. -/
def readList {α : Type} (read : Tree → Except Fault α) : Tree → Except Fault (List α)
  | .array _ items => items.readEach read
  | t => .error t.wrongKind

/-- Reads an object whose values are all of one kind. -/
def readMap {α : Type} (read : Tree → Except Fault α) : Tree → Except Fault (List (String × α))
  | .object _ members => members.readEach read
  | t => .error t.wrongKind

end Tree

/-- Nothing may follow the items that have a meaning by their place. -/
def Items.readEnd : Items → Except Fault Unit
  | .close => .ok ()
  | .item behind _ _ => .error (.malformed behind)
  | .broken f => .error f

/-- Reads a record given as an array: the items are the fields in their order, and items that are
missing at the end keep the fields as they are. -/
def Items.readRecord {φ ρ : Type} (read : φ → Tree → ρ → Except Fault ρ) :
    List φ → Items → ρ → Except Fault ρ
  | [], items, r => do
    items.readEnd
    return r
  | _ :: _, .close, r => .ok r
  | f :: fields, .item _ value more, r => do
    let r ← read f value r
    more.readRecord read fields r
  | _ :: _, .broken f, _ => .error f

/-- Reads a record given as an object: a field may be given once, at any place, and what is no
field is passed over. -/
def Members.readRecord {φ ρ : Type} [DecidableEq φ] (fieldOf? : String → Option φ)
    (read : φ → Tree → ρ → Except Fault ρ) : List φ → Members → ρ → Except Fault ρ
  | _, .close, r => .ok r
  | given, .member key _ value more, r => do
    let key ← key
    match fieldOf? (String.ofList key) with
    | none => do
      value.skip
      more.readRecord fieldOf? read given r
    | some f =>
      if f ∈ given then .error .mistyped
      else do
        let r ← read f value r
        more.readRecord fieldOf? read (f :: given) r
  | _, .broken f, _ => .error f

/-- Reads a record, given as an object or as an array of its fields in order. -/
def Tree.readRecord {φ ρ : Type} [DecidableEq φ] (fields : List φ) (fieldOf? : String → Option φ)
    (read : φ → Tree → ρ → Except Fault ρ) (start : ρ) : Tree → Except Fault ρ
  | .object _ members => members.readRecord fieldOf? read [] start
  | .array _ items => items.readRecord read fields start
  | t => .error t.wrongKind

end NameResolution.Json
