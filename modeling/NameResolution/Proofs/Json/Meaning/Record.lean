import NameResolution.Proofs.Json.Meaning.Value
import NameResolution.Table

/-!
# What records mean

A record is given by an object, whose members say by name which field they are for, or by an array,
whose items say it by their place (`GivesFields`). A field may be given once; what is no
field says nothing, and a field that is not given is as if `null` were given. Nothing else counts
(`IsRecord`), the order of the members included.

The reader sets one field after the other. What it has at the end is told field by field
(`RecordKind.Updates`), which is what the inductions along members and items are about.
-/

namespace NameResolution.Json

/-- How records of a kind are given: their fields, by name and by place, and what a value says of a
field. A record is what it holds of each field. -/
structure RecordKind (φ ρ : Type) where
  fields : List φ
  distinct : fields.Nodup
  fieldOf? : String → Option φ
  Value : φ → Type
  means : (f : φ) → Written → Value f → Prop
  start : ρ
  get : ρ → (f : φ) → Value f
  set : ρ → (f : φ) → Value f → ρ
  get_set : ∀ (r : ρ) (f : φ) (x : Value f), get (set r f x) f = x
  get_set_of_ne : ∀ (r : ρ) {f g : φ} (x : Value f), f ≠ g → get (set r f x) g = get r g
  ext_get : ∀ {r r' : ρ}, (∀ f, get r f = get r' f) → r = r'
  /-- A field that is not given is as if `null` were given. -/
  means_null : ∀ (f : φ) (x : Value f), means f (.word .null) x ↔ x = get start f

variable {φ ρ : Type}

/-- The members that are fields. -/
def RecordKind.known (R : RecordKind φ ρ) (named : List (String × Written)) : List (φ × Written) :=
  named.filterMap fun e => (R.fieldOf? e.1).map (·, e.2)

theorem RecordKind.known_of_none {R : RecordKind φ ρ} {name : String}
    (h : R.fieldOf? name = none) (v : Written) (named : List (String × Written)) :
    R.known ((name, v) :: named) = R.known named := by
  rw [known, List.filterMap_cons_none (by rw [h]; rfl), known]

theorem RecordKind.known_of_some {R : RecordKind φ ρ} {name : String} {f : φ}
    (h : R.fieldOf? name = some f) (v : Written) (named : List (String × Written)) :
    R.known ((name, v) :: named) = (f, v) :: R.known named := by
  rw [known, List.filterMap_cons_some (by rw [h]; rfl), known]

/-- The fields that a value gives, with their values. -/
inductive Written.GivesFields (R : RecordKind φ ρ) : Written → List (φ × Written) → Prop where
  | object {members : WrittenMembers} {named : List (String × Written)}
    (h : List.Forall₂ (IsEntry Eq) members.toList named)
    (once : ((R.known named).map Prod.fst).Nodup) : GivesFields R (.object members) (R.known named)
  | array {items : WrittenItems} (h : items.toList.length ≤ R.fields.length) :
    GivesFields R (.array items) (R.fields.zip items.toList)

/-- The record that a value means. -/
def Written.IsRecord [DecidableEq φ] (R : RecordKind φ ρ) (v : Written) (r : ρ) : Prop :=
  ∃ given, v.GivesFields R given ∧
    ∀ f, R.means f ((Table.look f given).getD (.word .null)) (R.get r f)

namespace RecordKind

variable [DecidableEq φ] (R : RecordKind φ ρ)

/-- The fields that are given are as their values say, and the others as they were. -/
def Updates (given : List (φ × Written)) (r r' : ρ) : Prop :=
  ∀ f, match Table.look f given with
    | none => R.get r' f = R.get r f
    | some v => R.means f v (R.get r' f)

variable {R}

theorem updates_nil {r r' : ρ} : R.Updates [] r r' ↔ r = r' := by
  constructor
  · exact fun h => R.ext_get fun f => (h f).symm
  · rintro rfl f
    rfl

/-- A field is set by its own value, and by no other. -/
theorem updates_cons {f : φ} {v : Written} {given : List (φ × Written)}
    (hf : f ∉ given.map Prod.fst) {r r' : ρ} :
    R.Updates ((f, v) :: given) r r' ↔
      ∃ x, R.means f v x ∧ R.Updates given (R.set r f x) r' := by
  have hnone : Table.look f given = none := Table.look_eq_none_iff.mpr hf
  have hself : Table.look f ((f, v) :: given) = some v := if_pos rfl
  have hother : ∀ g, f ≠ g → Table.look g ((f, v) :: given) = Table.look g given :=
    fun g hg => if_neg hg
  constructor
  · intro h
    have hv := h f
    simp only [hself] at hv
    refine ⟨R.get r' f, hv, fun g => ?_⟩
    by_cases hg : f = g
    · subst hg
      rw [hnone]
      exact (R.get_set r f _).symm
    · rw [R.get_set_of_ne r _ hg, ← hother g hg]
      exact h g
  · rintro ⟨x, hx, h⟩ g
    by_cases hg : f = g
    · subst hg
      have hget := h f
      simp only [hnone, R.get_set] at hget
      rw [hself, hget]
      exact hx
    · rw [← R.get_set_of_ne r x hg, hother g hg]
      exact h g

theorem updates_start {given : List (φ × Written)} {r : ρ} :
    R.Updates given R.start r ↔
      ∀ f, R.means f ((Table.look f given).getD (.word .null)) (R.get r f) := by
  unfold Updates
  refine forall_congr' fun f => ?_
  cases Table.look f given with
  | none => exact (R.means_null f _).symm
  | some v => exact Iff.rfl

end RecordKind

/-! ## Reading records -/

/-- The reader of fields sets a field to what its value says. -/
def SetsFields (R : RecordKind φ ρ) (read : φ → Tree → ρ → Except Fault ρ) : Prop :=
  ∀ f v r r', read f v.tree r = .ok r' ↔ ∃ x, R.means f v x ∧ R.set r f x = r'

section Reading

variable [DecidableEq φ] {R : RecordKind φ ρ} {read : φ → Tree → ρ → Except Fault ρ}

theorem readRecord_items (hread : SetsFields R read) : ∀ (fields : List φ), fields.Nodup →
    ∀ (items : WrittenItems) (r r' : ρ), items.tree.readRecord read fields r = .ok r' ↔
      items.toList.length ≤ fields.length ∧ R.Updates (fields.zip items.toList) r r'
  | [], _, .nil, r, r' => by
    rw [WrittenItems.toList, List.zip_nil_right, RecordKind.updates_nil]
    constructor
    · exact fun h => ⟨Nat.le_refl _, Except.ok.inj h⟩
    · exact fun h => congrArg Except.ok h.2
  | [], _, .cons value more, r, r' => by
    constructor
    · intro h
      cases h
    · intro h
      exact absurd h.1 (Nat.not_succ_le_zero _)
  | f :: fields, _, .nil, r, r' => by
    rw [WrittenItems.toList, List.zip_nil_right, RecordKind.updates_nil]
    constructor
    · exact fun h => ⟨Nat.zero_le _, Except.ok.inj h⟩
    · exact fun h => congrArg Except.ok h.2
  | f :: fields, hnodup, .cons value more, r, r' => by
    obtain ⟨hf, hfields⟩ := List.nodup_cons.mp hnodup
    have hnew : f ∉ (fields.zip more.toList).map Prod.fst := by
      intro h
      obtain ⟨e, he, rfl⟩ := List.mem_map.mp h
      exact hf (List.of_mem_zip he).1
    rw [WrittenItems.tree, Items.readRecord, bind_eq_ok_iff, WrittenItems.toList,
      List.zip_cons_cons, RecordKind.updates_cons hnew, List.length_cons, List.length_cons,
      Nat.succ_le_succ_iff]
    constructor
    · rintro ⟨r₁, hvalue, hmore⟩
      obtain ⟨x, hx, rfl⟩ := (hread f value r r₁).mp hvalue
      obtain ⟨hlength, hupdates⟩ := (readRecord_items hread fields hfields more _ r').mp hmore
      exact ⟨hlength, x, hx, hupdates⟩
    · rintro ⟨hlength, x, hx, hupdates⟩
      exact ⟨R.set r f x, (hread f value r _).mpr ⟨x, hx, rfl⟩,
        (readRecord_items hread fields hfields more _ r').mpr ⟨hlength, hupdates⟩⟩

/-- Behind the fields that are already `given`, the members give each of the others once at
most. -/
theorem readRecord_members (hread : SetsFields R read) :
    ∀ (members : WrittenMembers) (given : List φ) (r r' : ρ),
      members.tree.readRecord R.fieldOf? read given r = .ok r' ↔
        ∃ named, List.Forall₂ (Written.IsEntry Eq) members.toList named ∧
          ((R.known named).map Prod.fst).Nodup ∧ (∀ e ∈ R.known named, e.1 ∉ given) ∧
          R.Updates (R.known named) r r'
  | .nil, given, r, r' => by
    constructor
    · intro h
      refine ⟨[], .nil, List.nodup_nil, by simp [RecordKind.known], ?_⟩
      exact RecordKind.updates_nil.mpr (Except.ok.inj h)
    · rintro ⟨named, hnamed, -, -, hupdates⟩
      obtain rfl := List.forall₂_nil_left_iff.mp hnamed
      exact congrArg Except.ok (RecordKind.updates_nil.mp hupdates)
  | .cons key value more, given, r, r' => by
    rw [WrittenMembers.tree, Members.readRecord, bind_eq_ok_iff, WrittenMembers.toList]
    constructor
    · rintro ⟨text, htext, h⟩
      have hkey : Written.IsEntry Eq (key, value) (String.ofList text, value) :=
        ⟨by rw [String.toList_ofList]; exact keptText_eq_ok_iff.mp htext, rfl⟩
      -- a member that is no field is passed over, and a field may be given once
      cases hfield : R.fieldOf? (String.ofList text) with
      | none =>
        simp only [hfield] at h
        obtain ⟨_, -, hmore⟩ := bind_eq_ok_iff.mp h
        obtain ⟨named, hnamed, hrest⟩ := (readRecord_members hread more given r r').mp hmore
        refine ⟨_, .cons hkey hnamed, ?_⟩
        rwa [RecordKind.known_of_none hfield]
      | some f =>
        simp only [hfield] at h
        split at h
        next => cases h
        next hf =>
          obtain ⟨r₁, hvalue, hmore⟩ := bind_eq_ok_iff.mp h
          obtain ⟨x, hx, rfl⟩ := (hread f value r r₁).mp hvalue
          obtain ⟨named, hnamed, honce, hnew, hupdates⟩ :=
            (readRecord_members hread more (f :: given) _ r').mp hmore
          have hf' : f ∉ (R.known named).map Prod.fst := by
            intro h
            obtain ⟨e, he, rfl⟩ := List.mem_map.mp h
            exact hnew e he List.mem_cons_self
          refine ⟨_, .cons hkey hnamed, ?_⟩
          rw [RecordKind.known_of_some hfield]
          refine ⟨List.nodup_cons.mpr ⟨hf', honce⟩, ?_, ?_⟩
          · intro e he
            rcases List.mem_cons.mp he with rfl | he
            · exact hf
            · exact fun h => hnew e he (List.mem_cons_of_mem _ h)
          · exact (RecordKind.updates_cons hf').mpr ⟨x, hx, hupdates⟩
    · rintro ⟨named, hnamed, honce, hnew, hupdates⟩
      obtain ⟨⟨name, v⟩, rest, ⟨hkey, hv⟩, hrest, rfl⟩ := List.forall₂_cons_left_iff.mp hnamed
      obtain rfl : value = v := hv
      refine ⟨name.toList, keptText_eq_ok_iff.mpr hkey, ?_⟩
      rw [String.ofList_toList]
      cases hfield : R.fieldOf? name with
      | none =>
        rw [RecordKind.known_of_none hfield] at honce hnew hupdates
        refine bind_eq_ok_iff.mpr ⟨(), value.skip_tree, ?_⟩
        exact (readRecord_members hread more given r r').mpr
          ⟨rest, hrest, honce, hnew, hupdates⟩
      | some f =>
        rw [RecordKind.known_of_some hfield] at honce hnew hupdates
        obtain ⟨hf', honce⟩ := List.nodup_cons.mp honce
        obtain ⟨x, hx, hupdates⟩ := (RecordKind.updates_cons hf').mp hupdates
        simp only
        rw [if_neg (hnew _ List.mem_cons_self)]
        refine bind_eq_ok_iff.mpr ⟨R.set r f x, (hread f value r _).mpr ⟨x, hx, rfl⟩, ?_⟩
        refine (readRecord_members hread more (f :: given) _ r').mpr
          ⟨rest, hrest, honce, ?_, hupdates⟩
        intro e he h
        rcases List.mem_cons.mp h with heq | h
        · exact hf' (List.mem_map.mpr ⟨e, he, heq⟩)
        · exact hnew e (List.mem_cons_of_mem _ he) h

/-- A record is read as what it means. -/
theorem reads_readRecord (hread : SetsFields R read) :
    Reads (Tree.readRecord R.fields R.fieldOf? read R.start) (Written.IsRecord R) := by
  intro v r
  constructor
  · intro h
    cases v with
    | array items =>
      obtain ⟨hlength, hupdates⟩ := (readRecord_items hread R.fields R.distinct items _ r).mp h
      exact ⟨_, .array hlength, RecordKind.updates_start.mp hupdates⟩
    | object members =>
      obtain ⟨named, hnamed, honce, -, hupdates⟩ :=
        (readRecord_members hread members [] _ r).mp h
      exact ⟨_, .object hnamed honce, RecordKind.updates_start.mp hupdates⟩
    | numeral x =>
      rw [Written.tree, keptNumeral_eq] at h
      split at h <;> cases h
    | quoted strokes =>
      rw [Written.tree] at h
      cases hkept : keptText strokes <;> rw [hkept] at h <;> cases h
    | word w => cases h
  · rintro ⟨given, hgiven, hfields⟩
    have hupdates := RecordKind.updates_start.mpr hfields
    cases hgiven with
    | array hlength =>
      exact (readRecord_items hread R.fields R.distinct _ _ r).mpr ⟨hlength, hupdates⟩
    | object hnamed honce =>
      exact (readRecord_members hread _ [] _ r).mpr
        ⟨_, hnamed, honce, fun _ _ => List.not_mem_nil, hupdates⟩

end Reading

end NameResolution.Json
