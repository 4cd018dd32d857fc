/-!
# Tables: finite maps that remember when each key arrived

A `Table` holds at most one value per key. Its entries stand in the order in
which their keys first arrived: writing to a key that is present changes its
value and moves nothing, a new key goes to the end. What a table *means* is its
view `get?`; the order is for the answers that list a table.
-/

namespace NameResolution

/-- A finite map whose entries stand in the order of their keys' arrival. -/
structure Table (κ α : Type) where
  /-- The keys with their values, oldest key first. -/
  entries : List (κ × α)
  /-- No key stands twice. -/
  distinct : (entries.map Prod.fst).Nodup

namespace Table

variable {κ α : Type}

def empty : Table κ α := ⟨[], List.nodup_nil⟩

instance : Inhabited (Table κ α) := ⟨empty⟩

def keys (t : Table κ α) : List κ := t.entries.map Prod.fst

def size (t : Table κ α) : Nat := t.entries.length

def isEmpty (t : Table κ α) : Bool := t.entries.isEmpty

theorem eq_of_entries {t t' : Table κ α} (h : t.entries = t'.entries) : t = t' := by
  cases t
  cases t'
  cases h
  rfl

variable [DecidableEq κ]

/-- The first value listed under a key. -/
def look (k : κ) : List (κ × α) → Option α
  | [] => none
  | (k', v) :: rest => if k' = k then some v else look k rest

/-- Writes a value in place, or at the end when the key is new. -/
def put (k : κ) (v : α) : List (κ × α) → List (κ × α)
  | [] => [(k, v)]
  | (k', v') :: rest => if k' = k then (k', v) :: rest else (k', v') :: put k v rest

/-- Leaves out the entries of a key. -/
def drop (k : κ) (l : List (κ × α)) : List (κ × α) := l.filter fun e => e.1 ≠ k

theorem map_fst_put (k : κ) (v : α) (l : List (κ × α)) :
    (put k v l).map Prod.fst =
      if k ∈ l.map Prod.fst then l.map Prod.fst else l.map Prod.fst ++ [k] := by
  induction l with
  | nil => simp [put]
  | cons e l ih =>
    by_cases h : e.1 = k
    · simp [put, h]
    · have h' : ¬ k = e.1 := fun he => h he.symm
      simp only [put, h, h', if_false, List.map_cons, ih, List.mem_cons, false_or]
      split <;> simp

theorem nodup_put (k : κ) (v : α) {l : List (κ × α)} (h : (l.map Prod.fst).Nodup) :
    ((put k v l).map Prod.fst).Nodup := by
  rw [map_fst_put]
  split
  · exact h
  · next hk =>
    rw [List.nodup_append]
    refine ⟨h, by simp, ?_⟩
    intro a ha b hb
    rw [List.mem_singleton] at hb
    subst hb
    exact fun he => hk (he ▸ ha)

theorem nodup_drop (k : κ) {l : List (κ × α)} (h : (l.map Prod.fst).Nodup) :
    ((drop k l).map Prod.fst).Nodup :=
  List.Nodup.sublist (List.Sublist.map _ List.filter_sublist) h

def get? (t : Table κ α) (k : κ) : Option α := look k t.entries

def contains (t : Table κ α) (k : κ) : Bool := (t.get? k).isSome

/-- Writes a value: in place when the key is there, otherwise at the end. -/
def insert (t : Table κ α) (k : κ) (v : α) : Table κ α :=
  ⟨put k v t.entries, nodup_put k v t.distinct⟩

/-- Takes a key out, with its value. -/
def erase (t : Table κ α) (k : κ) : Table κ α :=
  ⟨drop k t.entries, nodup_drop k t.distinct⟩

/-- Takes out the keys that do not pass a test. -/
def keep (t : Table κ α) (test : κ → Bool) : Table κ α :=
  ⟨t.entries.filter fun e => test e.1,
    List.Nodup.sublist (List.Sublist.map _ List.filter_sublist) t.distinct⟩

/-- The table of a list of pairs: a repeated key keeps its first place and takes its last value. -/
def ofList (l : List (κ × α)) : Table κ α := l.foldl (fun t e => t.insert e.1 e.2) empty

@[simp] theorem get?_empty (k : κ) : (empty : Table κ α).get? k = none := rfl

theorem look_put (k k' : κ) (v : α) (l : List (κ × α)) :
    look k' (put k v l) = if k = k' then some v else look k' l := by
  induction l with
  | nil => simp [put, look]
  | cons e l ih =>
    by_cases h : e.1 = k
    · subst h
      by_cases h' : e.1 = k' <;> simp [put, look, h']
    · by_cases h' : e.1 = k'
      · have hk : ¬ k = k' := fun he => h (h'.trans he.symm)
        rw [put, if_neg h, look, look, if_pos h', if_pos h', if_neg hk]
      · simp [put, look, h, h', ih]

/-- Writing changes the value of the key written, and of no other. -/
theorem get?_insert (t : Table κ α) (k k' : κ) (v : α) :
    (t.insert k v).get? k' = if k = k' then some v else t.get? k' :=
  look_put k k' v t.entries

theorem look_drop (k k' : κ) (l : List (κ × α)) :
    look k' (drop k l) = if k = k' then none else look k' l := by
  induction l with
  | nil => simp [drop, look]
  | cons e l ih =>
    unfold drop at ih ⊢
    by_cases h : e.1 = k
    · by_cases h' : k = k'
      · simpa [List.filter_cons, h, h'] using ih
      · have : ¬ e.1 = k' := fun he => h' (h.symm.trans he)
        simpa [List.filter_cons, look, h, h', this] using ih
    · by_cases h' : k = k'
      · subst h'
        simpa [List.filter_cons, look, h] using ih
      · by_cases he : e.1 = k'
        · rw [List.filter_cons_of_pos (by simpa using h), look, look, if_pos he, if_pos he,
            if_neg h']
        · simpa [List.filter_cons, look, h, he, h'] using ih

/-- Taking a key out forgets its value, and no other. -/
theorem get?_erase (t : Table κ α) (k k' : κ) :
    (t.erase k).get? k' = if k = k' then none else t.get? k' :=
  look_drop k k' t.entries

theorem drop_put (k k' : κ) (v : α) (l : List (κ × α)) :
    drop k' (put k v l) = if k = k' then drop k' l else put k v (drop k' l) := by
  induction l with
  | nil => by_cases h : k = k' <;> simp [put, drop, h]
  | cons e l ih =>
    unfold drop at ih ⊢
    by_cases he : e.1 = k
    · by_cases h : k = k' <;> simp [put, he, h]
    · by_cases he' : e.1 = k'
      · have h : ¬ k = k' := fun h => he (he'.trans h.symm)
        rw [put, if_neg he, List.filter_cons_of_neg (by simpa using he'), ih, if_neg h, if_neg h,
          List.filter_cons_of_neg (by simpa using he')]
      · rw [put, if_neg he, List.filter_cons_of_pos (by simpa using he'), ih,
          List.filter_cons_of_pos (by simpa using he')]
        split
        next => rfl
        next => rw [put, if_neg he]

/-- Taking a key out undoes a write to it, and leaves any other write as it was. -/
theorem erase_insert (t : Table κ α) (k k' : κ) (v : α) :
    (t.insert k v).erase k' = if k = k' then t.erase k' else (t.erase k').insert k v := by
  apply eq_of_entries
  show drop k' (put k v t.entries) = _
  rw [drop_put]
  split <;> rfl

theorem erase_comm (t : Table κ α) (k k' : κ) : (t.erase k).erase k' = (t.erase k').erase k :=
  eq_of_entries <| by
    show List.filter _ (List.filter _ t.entries) = List.filter _ (List.filter _ t.entries)
    rw [List.filter_filter, List.filter_filter]
    exact List.filter_congr fun _ _ => Bool.and_comm _ _

theorem drop_of_look_none {k : κ} {l : List (κ × α)} (h : look k l = none) : drop k l = l := by
  induction l with
  | nil => rfl
  | cons e l ih =>
    by_cases he : e.1 = k
    · simp [look, he] at h
    · rw [look, if_neg he] at h
      unfold drop at ih ⊢
      rw [List.filter_cons_of_pos (by simpa using he), ih h]

/-- Taking out a key that is not there changes nothing. -/
theorem erase_of_get?_none {t : Table κ α} {k : κ} (h : t.get? k = none) : t.erase k = t :=
  eq_of_entries (drop_of_look_none h)

/-- A key is kept with its value, or not at all. -/
theorem get?_keep (t : Table κ α) (test : κ → Bool) (k : κ) :
    (t.keep test).get? k = if test k then t.get? k else none := by
  show look k (t.entries.filter fun e => test e.1) = if test k then look k t.entries else none
  induction t.entries with
  | nil => simp [look]
  | cons e l ih =>
    rw [List.filter_cons, look]
    by_cases he : e.1 = k
    · subst he
      by_cases htest : test e.1 = true
      · simp [htest, look]
      · rw [if_neg htest, ih, if_neg htest, if_neg htest]
    · rw [if_neg he, ← ih]
      split
      next => rw [look, if_neg he]
      next => rfl

/-! ### Keys -/

theorem look_isSome_iff {k : κ} {l : List (κ × α)} :
    (look k l).isSome = true ↔ k ∈ l.map Prod.fst := by
  induction l with
  | nil => simp [look]
  | cons e l ih =>
    by_cases h : e.1 = k
    · simp [look, h]
    · have h' : ¬ k = e.1 := fun he => h he.symm
      rw [look, if_neg h, ih, List.map_cons, List.mem_cons]
      simp [h']

theorem look_eq_none_iff {k : κ} {l : List (κ × α)} : look k l = none ↔ k ∉ l.map Prod.fst := by
  rw [← Option.not_isSome_iff_eq_none, look_isSome_iff]

theorem mem_of_look {k : κ} {v : α} {l : List (κ × α)} (h : look k l = some v) : (k, v) ∈ l := by
  induction l with
  | nil => cases h
  | cons e l ih =>
    rw [look] at h
    split at h
    next he =>
      obtain ⟨k', v'⟩ := e
      cases h
      cases he
      exact List.mem_cons_self
    next => exact List.mem_cons_of_mem _ (ih h)

/-- A list without repeated keys gives back the values that are listed. -/
theorem look_of_mem {k : κ} {v : α} {l : List (κ × α)} (hl : (l.map Prod.fst).Nodup)
    (h : (k, v) ∈ l) : look k l = some v := by
  induction l with
  | nil => cases h
  | cons e l ih =>
    rw [List.map_cons, List.nodup_cons] at hl
    rw [look]
    rcases List.mem_cons.mp h with rfl | h
    · exact if_pos rfl
    · have hne : e.1 ≠ k := fun he => hl.1 (he ▸ List.mem_map_of_mem h)
      rw [if_neg hne, ih hl.2 h]

theorem keys_insert (t : Table κ α) (k : κ) (v : α) :
    (t.insert k v).keys = if (t.get? k).isSome then t.keys else t.keys ++ [k] := by
  show (put k v t.entries).map Prod.fst = _
  rw [map_fst_put]
  split
  next h => exact (if_pos (look_isSome_iff.mpr h)).symm
  next h => exact (if_neg (mt look_isSome_iff.mp h)).symm

theorem eq_of_look {l l' : List (κ × α)} (hl : (l.map Prod.fst).Nodup)
    (hkeys : l.map Prod.fst = l'.map Prod.fst) (hlook : ∀ k, look k l = look k l') : l = l' := by
  induction l generalizing l' with
  | nil => exact (List.map_eq_nil_iff.mp hkeys.symm).symm
  | cons e l ih =>
    obtain ⟨k, v⟩ := e
    cases l' with
    | nil => cases hkeys
    | cons e' l' =>
      obtain ⟨k', v'⟩ := e'
      rw [List.map_cons, List.map_cons, List.cons.injEq] at hkeys
      obtain ⟨rfl, hkeys⟩ := hkeys
      rw [List.map_cons, List.nodup_cons] at hl
      have hv := hlook k
      rw [look, if_pos rfl, look, if_pos rfl, Option.some.injEq] at hv
      subst hv
      congr 1
      refine ih hl.2 hkeys fun n => ?_
      -- the key in front is in neither rest
      by_cases hn : k = n
      · subst hn
        rw [look_eq_none_iff.mpr hl.1, look_eq_none_iff.mpr (hkeys ▸ hl.1)]
      · have hrest := hlook n
        rwa [look, if_neg hn, look, if_neg hn] at hrest

/-- Tables are the same when their keys arrived in the same order and have the same values. -/
theorem ext_get? {t t' : Table κ α} (hkeys : t.keys = t'.keys) (hget : ∀ k, t.get? k = t'.get? k) :
    t = t' :=
  eq_of_entries (eq_of_look t.distinct hkeys hget)

/-- Writing the value that a key has changes nothing. -/
theorem insert_of_get? {t : Table κ α} {k : κ} {v : α} (h : t.get? k = some v) :
    t.insert k v = t := by
  refine ext_get? ?_ fun k' => ?_
  · rw [keys_insert, h]
    rfl
  · rw [get?_insert]
    split
    next hk => rw [← hk, h]
    next => rfl

end Table

end NameResolution
