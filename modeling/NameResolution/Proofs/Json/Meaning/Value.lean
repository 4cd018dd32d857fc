import Mathlib.Data.List.Forall2
import NameResolution.Json.Read
import NameResolution.Proofs.Json.Meaning.Tree

/-!
# What values mean

The kinds of values that documents are made of, each as a relation between a value as it is written
and what it means, independent of any reader. A reader *reads* a kind when it accepts the
values of this kind, and no others, as what they mean (`Reads`). A reader that is made from
another one reads a kind that is made from the kind of that one.
-/

namespace NameResolution.Json

variable {α : Type}

/-! ## Passing over a value -/

mutual

/-- Whatever is written can be passed over. -/
theorem Written.skip_tree : ∀ v : Written, v.tree.skip = .ok ()
  | .word _ => rfl
  | .numeral _ => rfl
  | .quoted _ => rfl
  | .array items => items.skip_tree
  | .object members => members.skip_tree

/-- Items as they are written can be passed over. -/
theorem WrittenItems.skip_tree : ∀ items : WrittenItems, items.tree.skip = .ok ()
  | .nil => rfl
  | .cons value more => by
    rw [WrittenItems.tree, Items.skip, value.skip_tree]
    exact more.skip_tree

theorem WrittenMembers.skip_tree : ∀ members : WrittenMembers, members.tree.skip = .ok ()
  | .nil => rfl
  | .cons key value more => by
    rw [WrittenMembers.tree, Members.skip, value.skip_tree]
    exact more.skip_tree

end

/-! ## Kinds of values -/

/-- The items of an array. -/
def WrittenItems.toList : WrittenItems → List Written
  | .nil => []
  | .cons value more => value :: more.toList

/-- The members of an object, keys and values. -/
def WrittenMembers.toList : WrittenMembers → List (List Stroke × Written)
  | .nil => []
  | .cons key value more => (key, value) :: more.toList

namespace Written

inductive IsText : Written → String → Prop where
  | intro {strokes : List Stroke} {text : List Char} (h : StandsFor strokes text) :
    IsText (.quoted strokes) (String.ofList text)

/-- A natural number below `2 ^ 32`. -/
inductive IsCount : Written → ℕ → Prop where
  | intro {x : WrittenNumeral} {n : ℕ} (inRange : x.numeral.inRange = true)
    (h : x.numeral.toCount? = some n) : IsCount (.numeral x) n

section Kinds

variable (means : Written → α → Prop)

/-- A value that may be absent, which `null` says. -/
inductive IsOptional : Written → Option α → Prop where
  | null : IsOptional (.word .null) none
  | given {v : Written} {a : α} (hv : v ≠ .word .null) (h : means v a) : IsOptional v (some a)

theorem isOptional_null_iff {means : Written → α → Prop} {a : Option α} :
    IsOptional means (.word .null) a ↔ a = none := by
  constructor
  · intro h
    cases h with
    | null => rfl
    | given hv _ => exact absurd rfl hv
  · rintro rfl
    exact .null

/-- An array whose items are all of one kind. -/
inductive IsList : Written → List α → Prop where
  | intro {items : WrittenItems} {l : List α} (h : List.Forall₂ means items.toList l) :
    IsList (.array items) l

/-- A key stands for a name, and its value means something. -/
def IsEntry (member : List Stroke × Written) (entry : String × α) : Prop :=
  StandsFor member.1 entry.1.toList ∧ means member.2 entry.2

/-- An object whose values are all of one kind. -/
inductive IsMap : Written → List (String × α) → Prop where
  | intro {members : WrittenMembers} {l : List (String × α)}
    (h : List.Forall₂ (IsEntry means) members.toList l) : IsMap (.object members) l

end Kinds

end Written

/-! ## Readers -/

/-- The reader accepts the values of a kind, and no others, as what they mean. -/
def Reads (read : Tree → Except Fault α) (means : Written → α → Prop) : Prop :=
  ∀ v a, read v.tree = .ok a ↔ means v a

/-- A text is read just as what it means. -/
theorem reads_readString : Reads Tree.readString Written.IsText := by
  intro v a
  constructor
  · intro h
    cases v with
    | quoted strokes =>
      obtain ⟨text, htext, rfl⟩ := map_eq_ok_iff.mp h
      exact .intro (keptText_eq_ok_iff.mp htext)
    | _ => cases h
  · rintro ⟨h⟩
    exact map_eq_ok_iff.mpr ⟨_, keptText_eq_ok_iff.mpr h, rfl⟩

/-- A numeral is kept if it is not too large. -/
theorem keptNumeral_eq (x : WrittenNumeral) :
    bared (keptNumeral (.ok (x.numeral, []))) =
      if x.numeral.inRange then .ok x.numeral else .error (.malformed []) := by
  rw [keptNumeral]
  split <;> rfl

/-- A number is read just as what it means. -/
theorem reads_readCount : Reads Tree.readCount Written.IsCount := by
  intro v n
  constructor
  · intro h
    cases v with
    | numeral x =>
      rw [Written.tree, keptNumeral_eq] at h
      split at h
      next hrange =>
        rw [Tree.readCount] at h
        split at h
        next hcount =>
          obtain rfl := Except.ok.inj h
          exact .intro hrange hcount
        next => cases h
      next => cases h
    | _ => cases h
  · rintro ⟨hrange, hcount⟩
    rw [Written.tree, keptNumeral_eq, if_pos hrange, Tree.readCount, hcount]

/-- A value that may be absent is read as what it means, if a present one is. -/
theorem Reads.readOptional {read : Tree → Except Fault α} {means : Written → α → Prop}
    (h : Reads read means) : Reads (Tree.readOptional read) (Written.IsOptional means) := by
  intro v a
  by_cases hv : v = .word .null
  · subst hv
    constructor
    · intro ha
      obtain rfl := Except.ok.inj ha
      exact .null
    · intro ha
      rw [Written.isOptional_null_iff.mp ha]
      rfl
  · -- only `null` is not handed on to the reader
    have hread : Tree.readOptional read v.tree = some <$> read v.tree := by
      cases v with
      | word w =>
        cases w with
        | null => exact absurd rfl hv
        | _ => rfl
      | _ => rfl
    rw [hread]
    constructor
    · intro ha
      obtain ⟨b, hb, rfl⟩ := map_eq_ok_iff.mp ha
      exact .given hv ((h v b).mp hb)
    · intro ha
      cases ha with
      | null => exact absurd rfl hv
      | given _ hb => exact map_eq_ok_iff.mpr ⟨_, (h v _).mpr hb, rfl⟩

/-- Items are read one by one as what they mean, if each is. -/
theorem readEach_items {read : Tree → Except Fault α} {means : Written → α → Prop}
    (h : Reads read means) : ∀ (items : WrittenItems) (l : List α),
      items.tree.readEach read = .ok l ↔ List.Forall₂ means items.toList l
  | .nil, l => by
    rw [WrittenItems.toList, List.forall₂_nil_left_iff]
    exact ⟨fun hl => (Except.ok.inj hl).symm, fun hl => congrArg Except.ok hl.symm⟩
  | .cons value more, l => by
    rw [WrittenItems.tree, Items.readEach, WrittenItems.toList, List.forall₂_cons_left_iff,
      bind_eq_ok_iff]
    constructor
    · rintro ⟨a, ha, hrest⟩
      obtain ⟨rest, hrest, hl⟩ := bind_eq_ok_iff.mp hrest
      exact ⟨a, rest, (h value a).mp ha, (readEach_items h more rest).mp hrest,
        (Except.ok.inj hl).symm⟩
    · rintro ⟨a, rest, ha, hrest, rfl⟩
      exact ⟨a, (h value a).mpr ha,
        bind_eq_ok_iff.mpr ⟨rest, (readEach_items h more rest).mpr hrest, rfl⟩⟩

/-- A list is read as what it means, if its items are. -/
theorem Reads.readList {read : Tree → Except Fault α} {means : Written → α → Prop}
    (h : Reads read means) : Reads (Tree.readList read) (Written.IsList means) := by
  intro v l
  constructor
  · intro hl
    cases v with
    | array items => exact .intro ((readEach_items h items l).mp hl)
    | _ => cases hl
  · rintro ⟨hl⟩
    exact (readEach_items h _ l).mpr hl

/-- Members are read one by one as what they mean, if each value is. -/
theorem readEach_members {read : Tree → Except Fault α} {means : Written → α → Prop}
    (h : Reads read means) : ∀ (members : WrittenMembers) (l : List (String × α)),
      members.tree.readEach read = .ok l ↔
        List.Forall₂ (Written.IsEntry means) members.toList l
  | .nil, l => by
    rw [WrittenMembers.toList, List.forall₂_nil_left_iff]
    exact ⟨fun hl => (Except.ok.inj hl).symm, fun hl => congrArg Except.ok hl.symm⟩
  | .cons key value more, l => by
    rw [WrittenMembers.tree, Members.readEach, WrittenMembers.toList, List.forall₂_cons_left_iff,
      bind_eq_ok_iff]
    constructor
    · rintro ⟨text, htext, hrest⟩
      obtain ⟨a, ha, hrest⟩ := bind_eq_ok_iff.mp hrest
      obtain ⟨rest, hrest, hl⟩ := bind_eq_ok_iff.mp hrest
      refine ⟨(String.ofList text, a), rest, ⟨?_, (h value a).mp ha⟩,
        (readEach_members h more rest).mp hrest, (Except.ok.inj hl).symm⟩
      rw [String.toList_ofList]
      exact keptText_eq_ok_iff.mp htext
    · rintro ⟨⟨name, a⟩, rest, ⟨hkey, ha⟩, hrest, rfl⟩
      refine ⟨name.toList, keptText_eq_ok_iff.mpr hkey, bind_eq_ok_iff.mpr ⟨a, (h value a).mpr ha,
        bind_eq_ok_iff.mpr ⟨rest, (readEach_members h more rest).mpr hrest, ?_⟩⟩⟩
      rw [String.ofList_toList]
      rfl

/-- A map is read as what it means, if its values are. -/
theorem Reads.readMap {read : Tree → Except Fault α} {means : Written → α → Prop}
    (h : Reads read means) : Reads (Tree.readMap read) (Written.IsMap means) := by
  intro v l
  constructor
  · intro hl
    cases v with
    | object members => exact .intro ((readEach_members h members l).mp hl)
    | _ => cases hl
  · rintro ⟨hl⟩
    exact (readEach_members h _ l).mpr hl

end NameResolution.Json
