import Mathlib.Data.List.Perm.Basic
import NameResolution.Proofs.Json.Meaning.Record

/-!
# Members in any order

What record an object means does not depend on the order of its members, on members that are no
fields, nor on fields that are given as `null` instead of not at all (`Rearranges`). All of this is seen
in the list of the fields that are given: rearranging permutes it, leaves it as it is, or adds a
`null` to it.
-/

namespace NameResolution.Json

variable {φ ρ : Type}

theorem StandsFor.unique {strokes : List Stroke} {text text' : List Char}
    (h : StandsFor strokes text) (h' : StandsFor strokes text') : text = text' := by
  have hkept := keptText_of_standsFor h
  rw [keptText_of_standsFor h'] at hkept
  exact (Except.ok.inj hkept).symm

/-- The members of a list, as an object has them. -/
def WrittenMembers.ofList : List (List Stroke × Written) → WrittenMembers
  | [] => .nil
  | (key, value) :: more => .cons key value (ofList more)

@[simp] theorem WrittenMembers.toList_ofList (l : List (List Stroke × Written)) :
    (ofList l).toList = l := by
  induction l with
  | nil => rfl
  | cons m l ih => rw [ofList, toList, ih]

/-- One change of an object's members that leaves the record as it is. -/
inductive Rearranges (R : RecordKind φ ρ) :
    List (List Stroke × Written) → List (List Stroke × Written) → Prop where
  | reorder {l l' : List (List Stroke × Written)} (h : l.Perm l') : Rearranges R l l'
  /-- A member whose name is no field's may stand anywhere, with any value. -/
  | foreign {before behind : List (List Stroke × Written)} {key : List Stroke} {name : String}
    {v : Written} (hkey : StandsFor key name.toList) (hname : R.fieldOf? name = none) :
    Rearranges R (before ++ behind) (before ++ (key, v) :: behind)
  /-- A field that is not given may be given as `null`. -/
  | null {before behind : List (List Stroke × Written)} {key : List Stroke} {name : String}
    {f : φ} (hkey : StandsFor key name.toList) (hname : R.fieldOf? name = some f)
    (absent : ∀ m ∈ before ++ behind, ∀ other : String, StandsFor m.1 other.toList →
      R.fieldOf? other ≠ some f) :
    Rearranges R (before ++ behind) (before ++ (key, .word .null) :: behind)

/-! ## Lists of given fields -/

section Look

variable {α : Type}

theorem look_perm [DecidableEq φ] {l l' : List (φ × α)} (h : l.Perm l') (hl : (l.map Prod.fst).Nodup)
    (f : φ) : Table.look f l = Table.look f l' := by
  have hl' : (l'.map Prod.fst).Nodup := (h.map Prod.fst).nodup_iff.mp hl
  cases hlook : Table.look f l with
  | some v => exact (Table.look_of_mem hl' (h.subset (Table.mem_of_look hlook))).symm
  | none =>
    have hnone : f ∉ l.map Prod.fst := Table.look_eq_none_iff.mp hlook
    exact (Table.look_eq_none_iff.mpr fun hmem => hnone ((h.map Prod.fst).symm.subset hmem)).symm

theorem nodup_middle {before behind : List (φ × α)} {f : φ} {v : α} :
    ((before ++ (f, v) :: behind).map Prod.fst).Nodup ↔
      f ∉ (before ++ behind).map Prod.fst ∧ ((before ++ behind).map Prod.fst).Nodup := by
  rw [(List.perm_middle.map Prod.fst).nodup_iff, List.map_cons, List.nodup_cons]

/-- One of the fields is given its own value, and the others are given what they are without it. -/
theorem look_middle [DecidableEq φ] {before behind : List (φ × α)} {f : φ} {v : α}
    (h : ((before ++ (f, v) :: behind).map Prod.fst).Nodup) (g : φ) :
    Table.look g (before ++ (f, v) :: behind) =
      if f = g then some v else Table.look g (before ++ behind) := by
  rw [look_perm List.perm_middle h g, Table.look]

end Look

namespace RecordKind

variable [DecidableEq φ] {R : RecordKind φ ρ}

/-- Each field is given once at most, and is in the record what its value says. -/
def Says (R : RecordKind φ ρ) (given : List (φ × Written)) (r : ρ) : Prop :=
  (given.map Prod.fst).Nodup ∧
    ∀ f, R.means f ((Table.look f given).getD (.word .null)) (R.get r f)

theorem says_perm {given given' : List (φ × Written)} (h : given.Perm given') (r : ρ) :
    R.Says given r ↔ R.Says given' r := by
  have hnodup := (h.map Prod.fst).nodup_iff
  constructor
  · rintro ⟨honce, hfields⟩
    refine ⟨hnodup.mp honce, fun f => ?_⟩
    rw [← look_perm h honce]
    exact hfields f
  · rintro ⟨honce, hfields⟩
    refine ⟨hnodup.mpr honce, fun f => ?_⟩
    rw [look_perm h (hnodup.mpr honce)]
    exact hfields f

/-- A field may be given another value that says the same. -/
theorem says_middle {before behind : List (φ × Written)} {f : φ} {v v' : Written}
    (hv : ∀ x, R.means f v x ↔ R.means f v' x) (r : ρ) :
    R.Says (before ++ (f, v) :: behind) r ↔ R.Says (before ++ (f, v') :: behind) r := by
  have hnodup : ((before ++ (f, v) :: behind).map Prod.fst).Nodup ↔
      ((before ++ (f, v') :: behind).map Prod.fst).Nodup := by
    rw [nodup_middle, nodup_middle]
  unfold Says
  rw [hnodup]
  refine and_congr_right fun honce => forall_congr' fun g => ?_
  rw [look_middle (hnodup.mpr honce), look_middle honce]
  by_cases hg : f = g
  · subst hg
    rw [if_pos rfl, if_pos rfl]
    exact hv _
  · rw [if_neg hg, if_neg hg]

/-- A field that is not given may be given as `null`. -/
theorem says_null {before behind : List (φ × Written)} {f : φ}
    (hf : f ∉ (before ++ behind).map Prod.fst) (r : ρ) :
    R.Says (before ++ behind) r ↔ R.Says (before ++ (f, .word .null) :: behind) r := by
  have hnodup : ((before ++ (f, Written.word .null) :: behind).map Prod.fst).Nodup ↔
      ((before ++ behind).map Prod.fst).Nodup :=
    nodup_middle.trans (and_iff_right hf)
  unfold Says
  rw [hnodup]
  refine and_congr_right fun honce => forall_congr' fun g => ?_
  rw [look_middle (hnodup.mpr honce)]
  by_cases hg : f = g
  · subst hg
    rw [if_pos rfl, Table.look_eq_none_iff.mpr hf]
    rfl
  · rw [if_neg hg]

end RecordKind

/-! ## Members -/

theorem not_mem_known {R : RecordKind φ ρ} {l : List (List Stroke × Written)}
    {named : List (String × Written)} {f : φ}
    (hnamed : List.Forall₂ (Written.IsEntry Eq) l named)
    (absent : ∀ m ∈ l, ∀ other : String, StandsFor m.1 other.toList → R.fieldOf? other ≠ some f) :
    f ∉ (R.known named).map Prod.fst := by
  induction hnamed with
  | nil => exact List.not_mem_nil
  | @cons m e l named he _ ih =>
    have hrest := ih fun m' hm' => absent m' (List.mem_cons_of_mem _ hm')
    cases hfield : R.fieldOf? e.1 with
    | none => rwa [RecordKind.known_of_none hfield]
    | some g =>
      rw [RecordKind.known_of_some hfield, List.map_cons, List.mem_cons, not_or]
      refine ⟨?_, hrest⟩
      rintro rfl
      exact absent m List.mem_cons_self e.1 he.1 hfield

section Members

variable [DecidableEq φ] {R : RecordKind φ ρ}

/-- The record that members give. -/
def MembersGive (R : RecordKind φ ρ) (l : List (List Stroke × Written)) (r : ρ) : Prop :=
  ∃ named, List.Forall₂ (Written.IsEntry Eq) l named ∧ R.Says (R.known named) r

theorem isRecord_object_iff {l : List (List Stroke × Written)} {r : ρ} :
    (Written.object (.ofList l)).IsRecord R r ↔ MembersGive R l r := by
  constructor
  · rintro ⟨given, hgiven, hfields⟩
    cases hgiven with
    | object hnamed honce =>
      rw [WrittenMembers.toList_ofList] at hnamed
      exact ⟨_, hnamed, honce, hfields⟩
  · rintro ⟨named, hnamed, honce, hfields⟩
    refine ⟨_, .object ?_ honce, hfields⟩
    rwa [WrittenMembers.toList_ofList]

theorem of_forall₂_append {α β : Type} {P : α → β → Prop} :
    ∀ {before behind : List α} {l : List β}, List.Forall₂ P (before ++ behind) l →
      ∃ l₁ l₂, List.Forall₂ P before l₁ ∧ List.Forall₂ P behind l₂ ∧ l = l₁ ++ l₂
  | [], _, l, h => ⟨[], l, .nil, h, rfl⟩
  | a :: before, _, _, h => by
    cases h with
    | cons ha h =>
      obtain ⟨l₁, l₂, h₁, h₂, rfl⟩ := of_forall₂_append h
      exact ⟨_ :: l₁, l₂, .cons ha h₁, h₂, rfl⟩

/-- What is given is given by the members in front and by those behind. -/
theorem membersGive_append {before behind : List (List Stroke × Written)} {r : ρ} :
    MembersGive R (before ++ behind) r ↔
      ∃ named named', List.Forall₂ (Written.IsEntry Eq) before named ∧
        List.Forall₂ (Written.IsEntry Eq) behind named' ∧
        R.Says (R.known named ++ R.known named') r := by
  constructor
  · rintro ⟨_, hnamed, hsays⟩
    obtain ⟨named, named', hbefore, hbehind, rfl⟩ := of_forall₂_append hnamed
    rw [RecordKind.known, List.filterMap_append] at hsays
    exact ⟨named, named', hbefore, hbehind, hsays⟩
  · rintro ⟨named, named', hbefore, hbehind, hsays⟩
    refine ⟨named ++ named', List.rel_append hbefore hbehind, ?_⟩
    rw [RecordKind.known, List.filterMap_append]
    exact hsays

/-- One of the members has its own name, and the others have theirs. -/
theorem membersGive_middle {before behind : List (List Stroke × Written)} {key : List Stroke}
    {name : String} {v : Written} {r : ρ} (hkey : StandsFor key name.toList) :
    MembersGive R (before ++ (key, v) :: behind) r ↔
      ∃ named named', List.Forall₂ (Written.IsEntry Eq) before named ∧
        List.Forall₂ (Written.IsEntry Eq) behind named' ∧
        R.Says (R.known named ++ R.known ((name, v) :: named')) r := by
  rw [membersGive_append]
  constructor
  · rintro ⟨named, rest, hbefore, hrest, hsays⟩
    obtain ⟨⟨name', v'⟩, named', ⟨hkey', hv⟩, hbehind, rfl⟩ := List.forall₂_cons_left_iff.mp hrest
    obtain rfl : v = v' := hv
    obtain rfl : name = name' := String.toList_injective (hkey.unique hkey')
    exact ⟨named, named', hbefore, hbehind, hsays⟩
  · rintro ⟨named, named', hbefore, hbehind, hsays⟩
    exact ⟨named, _, hbefore, .cons ⟨hkey, rfl⟩ hbehind, hsays⟩

/-- What members give does not change when they are rearranged. -/
theorem membersGive_iff_of_rearranges {l l' : List (List Stroke × Written)}
    (h : Rearranges R l l') (r : ρ) : MembersGive R l r ↔ MembersGive R l' r := by
  have hperm : ∀ {l l' : List (List Stroke × Written)}, l.Perm l' →
      MembersGive R l r → MembersGive R l' r := by
    rintro l l' hperm ⟨named, hnamed, hsays⟩
    obtain ⟨named', hnamed', hperm'⟩ := List.perm_comp_forall₂ hperm.symm hnamed
    exact ⟨named', hnamed', (RecordKind.says_perm (hperm'.symm.filterMap _) r).mp hsays⟩
  cases h with
  | reorder h => exact ⟨hperm h, hperm h.symm⟩
  | foreign hkey hname =>
    rw [membersGive_append, membersGive_middle hkey]
    simp only [RecordKind.known_of_none hname]
  | @null before behind key name f hkey hname absent =>
    rw [membersGive_append, membersGive_middle hkey]
    simp only [RecordKind.known_of_some hname]
    refine exists_congr fun named => exists_congr fun named' => and_congr_right fun hbefore =>
      and_congr_right fun hbehind => RecordKind.says_null ?_ r
    rw [List.map_append, List.mem_append, not_or]
    exact ⟨not_mem_known hbefore fun m hm => absent m (List.mem_append_left _ hm),
      not_mem_known hbehind fun m hm => absent m (List.mem_append_right _ hm)⟩

/-- What members give does not change when a field gets another value that says the same. -/
theorem membersGive_iff_of_value {before behind : List (List Stroke × Written)}
    {key : List Stroke} {name : String} {f : φ} {v v' : Written}
    (hkey : StandsFor key name.toList) (hname : R.fieldOf? name = some f)
    (hv : ∀ x, R.means f v x ↔ R.means f v' x) (r : ρ) :
    MembersGive R (before ++ (key, v) :: behind) r ↔
      MembersGive R (before ++ (key, v') :: behind) r := by
  rw [membersGive_middle hkey, membersGive_middle hkey]
  simp only [RecordKind.known_of_some hname]
  exact exists_congr fun named => exists_congr fun named' => and_congr_right fun _ =>
    and_congr_right fun _ => RecordKind.says_middle hv r

end Members

end NameResolution.Json
