import NameResolution.Proofs.Json.Place

/-!
# Readers do not look at places

Reading a bare tree gives the bare outcome of reading the tree, for every reader of
values. A reader that is made from another one has this property when the other
one has it, which is what `IgnoresPlaces` is for.
-/

namespace NameResolution.Json

variable {α φ ρ : Type}

/-- The tree of bare tokens is the bare tree. -/
theorem treeOf_bare (ts : List Token) :
    treeOf (ts.map Token.bare) = ((treeOf ts).1.bare, (treeOf ts).2.map Token.bare) := by
  rw [treeOf, List.length_map]
  exact valueAt_bare _ ts

/-- The reader reads a tree without regard to places. -/
def IgnoresPlaces (read : Tree → Except Fault α) : Prop := ∀ t, read t.bare = bared (read t)

mutual

/-- A value is passed over without a look at its places. -/
theorem Tree.skip_bare : ∀ t : Tree, t.bare.skip = bared t.skip
  | .word w => by simp [Tree.bare, Tree.skip]
  | .numeral k s => by simp [Tree.bare, Tree.skip]
  | .quoted k s => by simp [Tree.bare, Tree.skip]
  | .array behind items => by simp [Tree.bare, Tree.skip, items.skip_bare]
  | .object behind members => by simp [Tree.bare, Tree.skip, members.skip_bare]
  | .broken f => by simp [Tree.bare, Tree.skip]

/-- What follows in an array is passed over without a look at its places. -/
theorem Items.skip_bare : ∀ items : Items, items.bare.skip = bared items.skip
  | .close => by simp [Items.bare, Items.skip]
  | .item behind value more => by simp [Items.bare, Items.skip, value.skip_bare, more.skip_bare]
  | .broken f => by simp [Items.bare, Items.skip]

/-- What follows in an object is passed over without a look at its places. -/
theorem Members.skip_bare : ∀ members : Members, members.bare.skip = bared members.skip
  | .close => by simp [Members.bare, Members.skip]
  | .member key keySkipped value more => by
    simp [Members.bare, Members.skip, value.skip_bare, more.skip_bare]
  | .broken f => by simp [Members.bare, Members.skip]

end

mutual

/-- A value of any kind is read without a look at its places, however deep it may nest. -/
theorem Tree.readAny_bare : ∀ (budget : Nat) (t : Tree),
    t.bare.readAny budget = bared (t.readAny budget)
  | budget, .word w => by simp [Tree.bare, Tree.readAny]
  | budget, .numeral k s => by simp [Tree.bare, Tree.readAny]
  | budget, .quoted k s => by simp [Tree.bare, Tree.readAny]
  | budget, .array behind items => by
    rw [Tree.bare, Tree.readAny, Tree.readAny]
    split
    next => rfl
    next => exact items.readAny_bare (budget - 1)
  | budget, .object behind members => by
    rw [Tree.bare, Tree.readAny, Tree.readAny]
    split
    next => rfl
    next => exact members.readAny_bare (budget - 1)
  | budget, .broken f => by simp [Tree.bare, Tree.readAny]

/-- Items of any kind are read without a look at their places. -/
theorem Items.readAny_bare : ∀ (budget : Nat) (items : Items),
    items.bare.readAny budget = bared (items.readAny budget)
  | budget, .close => by simp [Items.bare, Items.readAny]
  | budget, .item behind value more => by
    simp [Items.bare, Items.readAny, value.readAny_bare budget, more.readAny_bare budget]
  | budget, .broken f => by simp [Items.bare, Items.readAny]

/-- Members of any kind are read without a look at their places. -/
theorem Members.readAny_bare : ∀ (budget : Nat) (members : Members),
    members.bare.readAny budget = bared (members.readAny budget)
  | budget, .close => by simp [Members.bare, Members.readAny]
  | budget, .member key keySkipped value more => by
    simp [Members.bare, Members.readAny, value.readAny_bare budget, more.readAny_bare budget]
  | budget, .broken f => by simp [Members.bare, Members.readAny]

end

namespace Tree

/-- A value of the wrong kind has the same fault without its place. -/
theorem wrongKind_bare (t : Tree) : t.bare.wrongKind = t.wrongKind.bare := by
  cases t with
  | word w => cases w <;> rfl
  | numeral k s => cases k <;> rfl
  | quoted k s => cases k <;> rfl
  | array behind items => simp [Tree.bare, wrongKind]
  | object behind members => simp [Tree.bare, wrongKind]
  | broken f => simp [Tree.bare, wrongKind]

/-- Reading a text ignores places. -/
theorem readString_bare : IgnoresPlaces readString := fun t => by
  cases t with
  | quoted k s => simp [Tree.bare, readString]
  | _ => exact congrArg Except.error (wrongKind_bare _)

/-- Reading a number ignores places. -/
theorem readCount_bare : IgnoresPlaces readCount := fun t => by
  cases t with
  | numeral k s =>
    cases k with
    | error f => rfl
    | ok x =>
      simp only [Tree.bare, readCount, bared_ok]
      cases x.toCount? <;> rfl
  | _ => exact congrArg Except.error (wrongKind_bare _)

/-- A value that may be absent is read without places if a present one is. -/
theorem readOptional_bare {read : Tree → Except Fault α} (h : IgnoresPlaces read) :
    IgnoresPlaces (readOptional read) := fun t => by
  -- only `null` is not handed on to the reader
  have hread : some <$> read t.bare = bared (some <$> read t) := by
    rw [h t, bared_functorMap]
  cases t with
  | word w =>
    cases w with
    | error f => exact hread
    | ok w =>
      cases w with
      | null => rfl
      | yes => exact hread
      | no => exact hread
  | _ => exact hread

end Tree

/-- Items are read one by one without places if each is. -/
theorem Items.readEach_bare {read : Tree → Except Fault α} (h : IgnoresPlaces read) :
    ∀ items : Items, items.bare.readEach read = bared (items.readEach read)
  | .close => by simp [Items.bare, Items.readEach]
  | .item behind value more => by
    simp [Items.bare, Items.readEach, h value, more.readEach_bare h]
  | .broken f => by simp [Items.bare, Items.readEach]

/-- Members are read one by one without places if each value is. -/
theorem Members.readEach_bare {read : Tree → Except Fault α} (h : IgnoresPlaces read) :
    ∀ members : Members, members.bare.readEach read = bared (members.readEach read)
  | .close => by simp [Members.bare, Members.readEach]
  | .member key keySkipped value more => by
    simp [Members.bare, Members.readEach, h value, more.readEach_bare h]
  | .broken f => by simp [Members.bare, Members.readEach]

namespace Tree

/-- A list is read without places if each of its items is. -/
theorem readList_bare {read : Tree → Except Fault α} (h : IgnoresPlaces read) :
    IgnoresPlaces (readList read) := fun t => by
  cases t with
  | array behind items => exact items.readEach_bare h
  | _ => exact congrArg Except.error (wrongKind_bare _)

/-- A map is read without places if each of its values is. -/
theorem readMap_bare {read : Tree → Except Fault α} (h : IgnoresPlaces read) :
    IgnoresPlaces (readMap read) := fun t => by
  cases t with
  | object behind members => exact members.readEach_bare h
  | _ => exact congrArg Except.error (wrongKind_bare _)

end Tree

/-! ## Records -/

/-- Whether an array ends does not depend on places. -/
theorem Items.readEnd_bare (items : Items) : items.bare.readEnd = bared items.readEnd := by
  cases items with
  | close => simp [Items.bare, Items.readEnd]
  | item behind value more => simp [Items.bare, Items.readEnd]
  | broken f => simp [Items.bare, Items.readEnd]

section Record

variable {read : φ → Tree → ρ → Except Fault ρ}

/-- A record given as an array is read without places if each of its fields is. -/
theorem Items.readRecord_bare (h : ∀ f r, IgnoresPlaces (read f · r)) :
    ∀ (fields : List φ) (items : Items) (r : ρ),
      items.bare.readRecord read fields r = bared (items.readRecord read fields r)
  | [], items, r => by simp [Items.readRecord, items.readEnd_bare]
  | f :: fields, .close, r => by simp [Items.bare, Items.readRecord]
  | f :: fields, .item behind value more, r => by
    have hvalue : read f value.bare r = bared (read f value r) := h f r value
    simp [Items.bare, Items.readRecord, hvalue, more.readRecord_bare h fields]
  | f :: fields, .broken fault, r => by simp [Items.bare, Items.readRecord]

/-- A record's members are read without places if each of its fields is. -/
theorem Members.readRecord_bare [DecidableEq φ] {fieldOf? : String → Option φ}
    (h : ∀ f r, IgnoresPlaces (read f · r)) :
    ∀ (members : Members) (given : List φ) (r : ρ),
      members.bare.readRecord fieldOf? read given r =
        bared (members.readRecord fieldOf? read given r)
  | .close, given, r => by simp [Members.bare, Members.readRecord]
  | .member key keySkipped value more, given, r => by
    simp only [Members.bare, Members.readRecord, bared_bind]
    congr 1
    funext key
    -- a member that is no field is passed over, and a field may be given once
    cases fieldOf? (String.ofList key) with
    | none => simp [value.skip_bare, more.readRecord_bare h given]
    | some f =>
      have hvalue : read f value.bare r = bared (read f value r) := h f r value
      by_cases hgiven : f ∈ given
      · simp [hgiven]
      · simp [hgiven, hvalue, more.readRecord_bare h (f :: given)]
  | .broken fault, given, r => by simp [Members.bare, Members.readRecord]

/-- A record is read without places if each of its fields is, in either form. -/
theorem Tree.readRecord_bare [DecidableEq φ] {fields : List φ} {fieldOf? : String → Option φ}
    (h : ∀ f r, IgnoresPlaces (read f · r)) (start : ρ) :
    IgnoresPlaces (Tree.readRecord fields fieldOf? read start) := fun t => by
  cases t with
  | object behind members => exact members.readRecord_bare h [] start
  | array behind items => exact items.readRecord_bare h fields start
  | _ => exact congrArg Except.error (wrongKind_bare _)

end Record

end NameResolution.Json
