import Mathlib.Data.List.Induction
import Mathlib.Data.Set.Card
import NameResolution.Proofs.Cache.History

/-!
# Which files a cache knows

A batch makes its file known, even one without names; a removal makes it unknown again, and a
clearing all files. So whether a file is known can be read off the history of a run: some batch for
it came behind the last removal of it and the last clearing (`Cache.contains_after_iff`). That is
the shape of every flag that each step sets, drops or leaves as it is (`foldl_iff_holdsSince`).
-/

namespace NameResolution

/-! ## Flags and histories -/

section Flags

variable {α : Type _} {β : Type _}

/-- Was there something that sets, with nothing behind it that drops? -/
def HoldsSince (sets drops : α → Bool) (past : List α) : Prop :=
  ∃ before a behind, past = before ++ a :: behind ∧ sets a = true ∧ ∀ b ∈ behind, drops b = false

/-- Nothing holds since anything at the start. -/
theorem not_holdsSince_nil (sets drops : α → Bool) : ¬ HoldsSince sets drops [] := by
  rintro ⟨before, a, behind, hpast, -⟩
  cases before <;> cases hpast

/-- What holds behind the latest event was set by it, or held before and was not dropped by it. -/
theorem holdsSince_concat {sets drops : α → Bool} {past : List α} {a : α} :
    HoldsSince sets drops (past ++ [a]) ↔
      sets a = true ∨ (drops a = false ∧ HoldsSince sets drops past) := by
  constructor
  · rintro ⟨before, b, behind, hpast, hsets, hdrops⟩
    -- what sets is the last, or stands in the past
    rcases List.eq_nil_or_concat behind with rfl | ⟨rest, last, rfl⟩
    · obtain ⟨-, hlast⟩ := List.append_inj' hpast rfl
      cases hlast
      exact .inl hsets
    · rw [List.concat_eq_append, ← List.cons_append, ← List.append_assoc] at hpast
      obtain ⟨rfl, hlast⟩ := List.append_inj' hpast rfl
      cases hlast
      refine .inr ⟨hdrops a (by simp), before, b, rest, rfl, hsets, fun c hc => ?_⟩
      exact hdrops c (by simp [hc])
  · rintro (hsets | ⟨hdrop, before, b, behind, rfl, hsets, hdrops⟩)
    · exact ⟨past, a, [], rfl, hsets, nofun⟩
    · refine ⟨before, b, behind ++ [a], by simp, hsets, fun c hc => ?_⟩
      rcases List.mem_append.mp hc with hc | hc
      · exact hdrops c hc
      · rw [List.mem_singleton.mp hc, hdrop]

/-- A flag that every step sets, drops or leaves as it is holds just if it was set, and not dropped
since. -/
theorem foldl_iff_holdsSince (flag : β → Bool) {step : β → α → β} {sets drops : α → Bool}
    (hstep : ∀ s a, flag (step s a) = (sets a || (!drops a && flag s))) {s : β}
    (hs : flag s = false) (past : List α) :
    flag (past.foldl step s) = true ↔ HoldsSince sets drops past := by
  induction past using List.reverseRecOn with
  | nil => simp [hs, not_holdsSince_nil]
  | append_singleton past a ih =>
    rw [List.foldl_append, List.foldl_cons, List.foldl_nil, hstep, holdsSince_concat, ← ih]
    simp

end Flags

/-! ## Keys of a table -/

namespace Table

variable {κ α : Type} (t : Table κ α)

theorem isEmpty_iff_size : t.isEmpty = true ↔ t.size = 0 := by
  rw [isEmpty, size, List.isEmpty_iff, List.length_eq_zero_iff]

variable [DecidableEq κ]

theorem contains_eq_true_iff {k : κ} : t.contains k = true ↔ k ∈ t.keys := look_isSome_iff

/-- The size of a table is the number of its keys. -/
theorem encard_keys : {k | t.contains k = true}.encard = t.size := by
  have hkeys : {k | t.contains k = true} = (t.keys.toFinset : Set κ) := by
    ext k
    simp [contains_eq_true_iff]
  have hnodup : t.keys.Nodup := t.distinct
  have hsize : t.keys.length = t.size := List.length_map _
  rw [hkeys, Set.encard_coe_eq_coe_finsetCard, List.toFinset_card_of_nodup hnodup, hsize]

end Table

/-! ## Files of a cache -/

variable {σ τ : Type}

namespace Cache

variable (c : Cache τ) (k key : CanonicalKey)

/-- Behind a batch, its file is known, and whatever was. -/
theorem contains_resolveNames [Target τ] (names : List String) (load : Loader σ τ) (state : σ) :
    (c.resolveNames k names load state).2.1.contains key =
      (decide (k = key) || c.contains key) := by
  unfold contains Table.contains
  rw [resolveNames_files]
  by_cases h : k = key <;> simp [h]

/-- Behind a removal, all that was known is, but for its file. -/
theorem contains_remove :
    (c.remove k).2.contains key = (!decide (k = key) && c.contains key) := by
  unfold contains Table.contains
  rw [remove_files]
  by_cases h : k = key <;> simp [h]

theorem contains_clear : c.clear.2.contains key = false := rfl

/-- A removal says whether there was something to remove. -/
theorem value_remove : (c.remove k).1.value = c.contains k := by
  unfold remove
  cases h : c.contains k <;> rfl

end Cache

/-- Is the operation a batch for this file? -/
def Operation.isBatchFor (key : CanonicalKey) : Operation τ → Bool
  | .resolve k .. => k = key
  | .remove _ | .clear => false

/-- Does the operation drop what is known of this file? -/
def Operation.drops (key : CanonicalKey) : Operation τ → Bool
  | .resolve .. => false
  | .remove k => k = key
  | .clear => true

/-- Behind an operation, a file is known that it brings, or that was known and is not dropped. -/
theorem Operation.contains_run [Target τ] (c : Cache τ) (op : Operation τ) (key : CanonicalKey) :
    (op.run c).2.contains key = (op.isBatchFor key || (!op.drops key && c.contains key)) := by
  cases op with
  | resolve k names load state => exact c.contains_resolveNames k key names load state
  | remove k => exact c.contains_remove k key
  | clear => exact c.contains_clear key

/-- A file is known just if a batch for it came behind the last removal of it and the last
clearing. -/
theorem Cache.contains_after_iff [Target τ] (label : String) (ops : List (Operation τ))
    (key : CanonicalKey) :
    (Cache.after { label := label } ops).contains key = true ↔
      HoldsSince (Operation.isBatchFor key) (Operation.drops key) ops :=
  foldl_iff_holdsSince (Cache.contains · key) (fun c op => op.contains_run c key) rfl ops

/-- Does a cache know just the files that its history tells, and say so? -/
structure Cache.KnowsByHistory (ops : List (Operation τ)) (c : Cache τ) : Prop where
  /-- A file is known just if a batch for it, be it without names, came behind the last removal of
  it and the last clearing. -/
  contains : ∀ key, c.contains key = true ↔
    HoldsSince (Operation.isBatchFor key) (Operation.drops key) ops
  /-- The size is the number of these files. -/
  size : {key | HoldsSince (Operation.isBatchFor key) (Operation.drops key) ops}.encard = c.size
  isEmpty : c.isEmpty = true ↔ c.size = 0
  /-- A removal says whether the file was known, and leaves the entry of every other file. -/
  remove : ∀ key, (c.remove key).1.value = c.contains key ∧
    (c.remove key).2.contains key = false ∧
    ∀ k, k ≠ key → (c.remove key).2.files.get? k = c.files.get? k

/-- What a cache knows can be told from its history. -/
theorem Cache.knowsByHistory_after [Target τ] (label : String) (ops : List (Operation τ)) :
    KnowsByHistory ops (Cache.after { label := label } ops) := by
  have hcontains := contains_after_iff label ops
  constructor
  case contains => exact hcontains
  case size =>
    have hknown : {key | HoldsSince (Operation.isBatchFor key) (Operation.drops key) ops} =
        {key | (Cache.after { label := label } ops).contains key = true} :=
      Set.ext fun key => (hcontains key).symm
    rw [hknown]
    exact Table.encard_keys _
  case isEmpty => exact Table.isEmpty_iff_size _
  case remove =>
    intro key
    refine ⟨value_remove _ key, ?_, fun k hk => ?_⟩
    · rw [contains_remove, decide_eq_true rfl, Bool.not_true, Bool.false_and]
    · rw [remove_files, if_neg fun h => hk h.symm]

end NameResolution
