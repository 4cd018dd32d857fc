import Mathlib.Data.List.Nodup
import NameResolution.Proofs.Cache.Counters

/-!
# Operations on different files

The operations of a cache share a table and the counters. Still, batches and removals of different
files commute: an operation on a file reads and writes the entry of that file only
(`Operation.outcome_congr`, `Operation.run_sameAt`), and counters are added to, in whatever order
(`Stats.count_right_comm`). So in a pass over distinct files every operation does what it would do
alone (`Cache.eachAlone`), and reordering the pass changes no outcome. Every batch brings a loader
of its own; a function of the name is a loader without a state.

The order of a pass is left behind only as the order in which the entries arrived. Caches that
differ in nothing else are the same (`Cache.IsSame`), and no later operation tells them apart
(`Cache.IsSame.outcomes`).
-/

namespace NameResolution

/-! ## Tables up to the order of arrival -/

namespace Table

variable {κ α : Type} [DecidableEq κ] {t t' : Table κ α}

/-- A table has a pair just if it gives the one for the other. -/
theorem mem_entries_iff {k : κ} {v : α} : (k, v) ∈ t.entries ↔ t.get? k = some v :=
  ⟨look_of_mem t.distinct, mem_of_look⟩

/-- Tables that give the same for every key have the same entries, perhaps in another order. -/
theorem perm_iff_get? : t.entries.Perm t'.entries ↔ ∀ k, t.get? k = t'.get? k := by
  have hnodup : t.entries.Nodup := List.Nodup.of_map Prod.fst t.distinct
  have hnodup' : t'.entries.Nodup := List.Nodup.of_map Prod.fst t'.distinct
  rw [List.perm_ext_iff_of_nodup hnodup hnodup']
  constructor
  · intro h k
    refine Option.ext fun v => ?_
    rw [← mem_entries_iff, ← mem_entries_iff, h]
  · rintro h ⟨k, v⟩
    rw [mem_entries_iff, mem_entries_iff, h]

end Table

variable {σ τ : Type}

/-! ## What an operation gives -/

/-- What an operation gives, with everything that becomes visible. -/
inductive Outcome (τ : Type) where
  /-- A batch gives its slots and its flag, and asks its loader. -/
  | resolved (batch : Observed (Batch τ)) (asked : List (String × Resolution τ))
  | removed (said : Observed Bool)
  | cleared (said : Observed Unit)

namespace Operation

def outcome [Target τ] (c : Cache τ) : Operation τ → Outcome τ
  | .resolve key names load state =>
    .resolved (c.resolveNames key names load state).1 ((c.entry key).questions names load state)
  | .remove key => .removed (c.remove key).1
  | .clear => .cleared c.clear.1

/-- The file that an operation is for; a clearing is for all. -/
def key? : Operation τ → Option CanonicalKey
  | .resolve key .. => some key
  | .remove key => some key
  | .clear => none

/-- How the names of an operation are served. -/
def origins (c : Cache τ) : Operation τ → List Origin
  | .resolve key names load state => (c.servedNames key names load state).map (·.origin)
  | .remove _ | .clear => []

end Operation

/-- What the operations of a run give, one after the other. -/
def Cache.outcomes [Target τ] (c : Cache τ) : List (Operation τ) → List (Outcome τ)
  | [] => []
  | op :: ops => op.outcome c :: (op.run c).2.outcomes ops

/-! ## Counting in any order -/

theorem Stats.count_right_comm (s : Stats) (o o' : Origin) :
    (s.count o).count o' = (s.count o').count o := by
  cases o <;> cases o' <;> rfl

/-- It does not matter in which order origins are counted. -/
theorem Stats.foldl_count_perm {origins origins' : List Origin} (h : origins.Perm origins')
    (s : Stats) : origins.foldl count s = origins'.foldl count s :=
  h.foldl_eq' (fun o _ o' _ s => s.count_right_comm o o') s

/-- An operation counts the origins of its names. -/
theorem Operation.run_stats [Target τ] (c : Cache τ) (op : Operation τ) :
    (op.run c).2.stats = (op.origins c).foldl Stats.count c.stats := by
  cases op with
  | resolve key names load state => rfl
  | remove key => exact c.remove_stats key
  | clear => rfl

/-- No operation renames a cache in the log. -/
theorem Operation.run_label [Target τ] (c : Cache τ) (op : Operation τ) :
    (op.run c).2.label = c.label := by
  cases op with
  | remove key => exact c.remove_label key
  | _ => rfl

/-! ## One file of a cache -/

/-- Do two caches have the same entry for a file, and the same name in the log? -/
structure Cache.SameAt (key : CanonicalKey) (c c' : Cache τ) : Prop where
  label : c.label = c'.label
  file : c.files.get? key = c'.files.get? key

namespace Operation

variable {c c' : Cache τ} {op : Operation τ} {key k : CanonicalKey}

/-- How the names of an operation on a file are served depends on what the cache has for it. -/
theorem origins_congr (hkey : op.key? = some key) (hsame : c.SameAt key c') :
    op.origins c = op.origins c' := by
  cases op with
  | resolve k names load state =>
    cases hkey
    simp only [origins, Cache.servedNames, Cache.entry, hsame.file]
  | _ => rfl

variable [Target τ]

/-- What an operation on a file gives depends on what the cache has for the file. -/
theorem outcome_congr (hkey : op.key? = some key) (hsame : c.SameAt key c') :
    op.outcome c = op.outcome c' := by
  obtain ⟨hlabel, hfile⟩ := hsame
  cases op with
  | resolve k names load state =>
    cases hkey
    simp only [outcome, Cache.resolveNames, Cache.entry, hlabel, hfile]
  | remove k =>
    cases hkey
    have hcontains : c.contains key = c'.contains key := congrArg Option.isSome hfile
    simp only [outcome, Cache.remove, hcontains, hlabel]
    split <;> rfl
  | clear => cases hkey

/-- What an operation leaves for its file depends on what the cache has for the file. -/
theorem get?_run_congr (hkey : op.key? = some key) (hsame : c.SameAt key c') :
    (op.run c).2.files.get? key = (op.run c').2.files.get? key := by
  cases op with
  | resolve k names load state =>
    cases hkey
    show (c.resolveNames key names load state).2.1.files.get? key =
      (c'.resolveNames key names load state).2.1.files.get? key
    rw [Cache.resolveNames_files, Cache.resolveNames_files, Cache.entry, Cache.entry, hsame.file]
  | remove k =>
    cases hkey
    show (c.remove key).2.files.get? key = (c'.remove key).2.files.get? key
    rw [Cache.remove_files, Cache.remove_files, hsame.file]
  | clear => cases hkey

/-- To any other file, an operation on a file does nothing. -/
theorem run_sameAt (hkey : op.key? = some k) (hne : k ≠ key) : c.SameAt key (op.run c).2 := by
  refine ⟨(op.run_label c).symm, ?_⟩
  cases op with
  | resolve k' names load state =>
    cases hkey
    show _ = (c.resolveNames k names load state).2.1.files.get? key
    rw [Cache.resolveNames_files, if_neg hne]
  | remove k' =>
    cases hkey
    show _ = (c.remove k).2.files.get? key
    rw [Cache.remove_files, if_neg hne]
  | clear => cases hkey

end Operation

/-! ## Caches that cannot be told apart -/

/-- Are two caches the same, but for the order in which their entries arrived? -/
structure Cache.IsSame (c c' : Cache τ) : Prop where
  label : c.label = c'.label
  files : c.files.entries.Perm c'.files.entries
  stats : c.stats = c'.stats

namespace Cache.IsSame

variable {c c' : Cache τ}

/-- Caches that are the same are so at every file. -/
theorem sameAt (hsame : c.IsSame c') (key : CanonicalKey) : c.SameAt key c' :=
  ⟨hsame.label, Table.perm_iff_get?.mp hsame.files key⟩

variable [Target τ]

/-- From caches that are the same, an operation gives the same. -/
theorem outcome (hsame : c.IsSame c') (op : Operation τ) : op.outcome c = op.outcome c' := by
  cases hkey : op.key? with
  | some key => exact Operation.outcome_congr hkey (hsame.sameAt key)
  | none =>
    cases op with
    | clear =>
      have hsize : c.files.size = c'.files.size := hsame.files.length_eq
      simp only [Operation.outcome, clear, hsame.label, hsize]
    | _ => cases hkey

/-- An operation leaves caches that are the same the same. -/
theorem run (hsame : c.IsSame c') (op : Operation τ) : (op.run c).2.IsSame (op.run c').2 := by
  cases hkey : op.key? with
  | some k =>
    constructor
    case label => rw [op.run_label, op.run_label, hsame.label]
    case files =>
      rw [Table.perm_iff_get?]
      intro key
      by_cases hk : k = key
      · subst hk
        exact Operation.get?_run_congr hkey (hsame.sameAt k)
      · rw [← (Operation.run_sameAt hkey hk).file, ← (Operation.run_sameAt hkey hk).file]
        exact (hsame.sameAt key).file
    case stats =>
      rw [op.run_stats, op.run_stats, Operation.origins_congr hkey (hsame.sameAt k), hsame.stats]
  | none =>
    cases op with
    | clear => exact ⟨hsame.label, .refl _, hsame.stats⟩
    | _ => cases hkey

/-- No run shows in which order the entries arrived. -/
theorem outcomes (hsame : c.IsSame c') (ops : List (Operation τ)) :
    c.outcomes ops = c'.outcomes ops := by
  induction ops generalizing c c' with
  | nil => rfl
  | cons op ops ih => rw [Cache.outcomes, Cache.outcomes, hsame.outcome op, ih (hsame.run op)]

end Cache.IsSame

/-! ## A pass over distinct files -/

/-- Is every operation of a pass for one file, and each for another? -/
structure OnOwnFiles (ops : List (Operation τ)) : Prop where
  onFile : ∀ op ∈ ops, ∃ key, op.key? = some key
  distinct : (ops.map Operation.key?).Nodup

/-- In a pass over distinct files, the first operation has a file that no other has. -/
theorem OnOwnFiles.of_cons {op : Operation τ} {ops : List (Operation τ)}
    (hown : OnOwnFiles (op :: ops)) :
    ∃ k, op.key? = some k ∧ (∀ op' ∈ ops, op'.key? ≠ some k) ∧ OnOwnFiles ops := by
  obtain ⟨honFile, hdistinct⟩ := hown
  rw [List.forall_mem_cons] at honFile
  rw [List.map_cons, List.nodup_cons] at hdistinct
  obtain ⟨k, hk⟩ := honFile.1
  refine ⟨k, hk, ?_, honFile.2, hdistinct.2⟩
  intro op' hop' hk'
  apply hdistinct.1
  rw [hk, ← hk']
  exact List.mem_map_of_mem hop'

/-- A pass over distinct files stays one in another order. -/
theorem OnOwnFiles.perm {ops ops' : List (Operation τ)} (hown : OnOwnFiles ops)
    (hperm : ops.Perm ops') : OnOwnFiles ops' where
  onFile op hop := hown.onFile op (hperm.mem_iff.mpr hop)
  distinct := (hperm.map Operation.key?).nodup_iff.mp hown.distinct

variable [Target τ]

/-- Does every operation of a pass do what it would do alone? -/
structure Cache.EachAlone (c : Cache τ) (ops : List (Operation τ)) : Prop where
  outcomes : c.outcomes ops = ops.map (·.outcome c)
  touched : ∀ op ∈ ops, ∀ key, op.key? = some key →
    (c.after ops).files.get? key = (op.run c).2.files.get? key
  untouched : ∀ key, (∀ op ∈ ops, op.key? ≠ some key) →
    (c.after ops).files.get? key = c.files.get? key
  stats : (c.after ops).stats = (ops.flatMap (·.origins c)).foldl Stats.count c.stats

/-- In a pass over distinct files, every operation does what it would do alone. -/
theorem Cache.eachAlone (c : Cache τ) {ops : List (Operation τ)} (hown : OnOwnFiles ops) :
    c.EachAlone ops := by
  induction ops generalizing c with
  | nil => exact ⟨rfl, nofun, fun _ _ => rfl, rfl⟩
  | cons op ops ih =>
    obtain ⟨k, hk, hother, hown⟩ := hown.of_cons
    have hrest := ih (op.run c).2 hown
    -- the rest of the pass finds its files as the first operation found them
    have hfinds : ∀ op' ∈ ops, ∃ key, op'.key? = some key ∧ c.SameAt key (op.run c).2 := by
      intro op' hop'
      obtain ⟨key, hkey⟩ := hown.onFile op' hop'
      refine ⟨key, hkey, Operation.run_sameAt hk ?_⟩
      rintro rfl
      exact hother op' hop' hkey
    constructor
    case outcomes =>
      rw [Cache.outcomes, List.map_cons, hrest.outcomes, List.cons.injEq]
      refine ⟨rfl, List.map_congr_left fun op' hop' => ?_⟩
      obtain ⟨key, hkey, hsame⟩ := hfinds op' hop'
      exact (Operation.outcome_congr hkey hsame).symm
    case touched =>
      intro op' hop' key hkey
      rw [Cache.after_cons]
      rcases List.mem_cons.mp hop' with rfl | hop'
      · rw [hk, Option.some.injEq] at hkey
        subst hkey
        exact hrest.untouched k hother
      · obtain ⟨key', hkey', hsame⟩ := hfinds op' hop'
        rw [hkey', Option.some.injEq] at hkey
        subst hkey
        rw [hrest.touched op' hop' key' hkey', Operation.get?_run_congr hkey' hsame]
    case untouched =>
      intro key hnone
      rw [List.forall_mem_cons, hk, ne_eq, Option.some.injEq] at hnone
      rw [Cache.after_cons, hrest.untouched key hnone.2]
      exact (Operation.run_sameAt hk hnone.1).file.symm
    case stats =>
      have horigins : ops.flatMap (·.origins (op.run c).2) = ops.flatMap (·.origins c) := by
        refine List.flatMap_congr fun op' hop' => ?_
        obtain ⟨key, hkey, hsame⟩ := hfinds op' hop'
        exact (Operation.origins_congr hkey hsame).symm
      rw [Cache.after_cons, hrest.stats, op.run_stats, horigins, List.flatMap_cons,
        List.foldl_append]

/-- No run renames a cache in the log. -/
theorem Cache.after_label (c : Cache τ) (ops : List (Operation τ)) :
    (c.after ops).label = c.label := by
  induction ops generalizing c with
  | nil => rfl
  | cons op ops ih => rw [Cache.after_cons, ih, op.run_label]

/-- In any order, a pass leaves the same cache behind. -/
theorem Cache.after_perm (c : Cache τ) {ops ops' : List (Operation τ)} (hown : OnOwnFiles ops)
    (hperm : ops.Perm ops') : (c.after ops).IsSame (c.after ops') := by
  have hpass := c.eachAlone hown
  have hpass' := c.eachAlone (hown.perm hperm)
  constructor
  case label => rw [c.after_label, c.after_label]
  case files =>
    rw [Table.perm_iff_get?]
    intro key
    by_cases htouched : ∃ op ∈ ops, op.key? = some key
    · obtain ⟨op, hop, hkey⟩ := htouched
      rw [hpass.touched op hop key hkey, hpass'.touched op (hperm.mem_iff.mp hop) key hkey]
    · have hnone : ∀ op ∈ ops, op.key? ≠ some key := by
        intro op hop hkey
        exact htouched ⟨op, hop, hkey⟩
      have hnone' : ∀ op ∈ ops', op.key? ≠ some key := by
        intro op hop
        exact hnone op (hperm.mem_iff.mpr hop)
      rw [hpass.untouched key hnone, hpass'.untouched key hnone']
  case stats =>
    rw [hpass.stats, hpass'.stats]
    exact Stats.foldl_count_perm (hperm.flatMap_right _) c.stats

/-! ## The order does not show -/

/-- Do two operations give and leave the same in either order? -/
structure Cache.Commute (c : Cache τ) (op op' : Operation τ) : Prop where
  first : op.outcome (op'.run c).2 = op.outcome c
  second : op'.outcome (op.run c).2 = op'.outcome c
  behind : (c.after [op, op']).IsSame (c.after [op', op])

/-- Does a pass give and leave the same in either of two orders? -/
structure Cache.SameInOrder (c : Cache τ) (ops ops' : List (Operation τ)) : Prop where
  /-- Every operation gives what it would give alone. -/
  alone : c.outcomes ops = ops.map (·.outcome c)
  /-- So it gives the same in both orders. -/
  outcomes : (ops.zip (c.outcomes ops)).Perm (ops'.zip (c.outcomes ops'))
  behind : (c.after ops).IsSame (c.after ops')
  /-- Nothing that is asked later tells in which order the pass was made. -/
  later : ∀ rest, (c.after ops).outcomes rest = (c.after ops').outcomes rest

/-- A pass over distinct files gives the same in any order. -/
theorem Cache.sameInOrder (c : Cache τ) {ops ops' : List (Operation τ)} (hown : OnOwnFiles ops)
    (hperm : ops.Perm ops') : c.SameInOrder ops ops' := by
  have halone := (c.eachAlone hown).outcomes
  have halone' := (c.eachAlone (hown.perm hperm)).outcomes
  have hbehind := c.after_perm hown hperm
  constructor
  case alone => exact halone
  case outcomes =>
    rw [halone, halone', ← List.map_prod_left_eq_zip, ← List.map_prod_left_eq_zip]
    exact hperm.map _
  case behind => exact hbehind
  case later => exact hbehind.outcomes

/-- **Operations on different files commute.** For every cache, two batches or removals for
different files give the same in either order, with the same log and the same questions to their
loaders, and leave the same table and counters. So a pass over distinct files can be made in any
order: no operation in it gives anything else, and none that comes later. -/
theorem different_files_commute (c : Cache τ) :
    (∀ (op op' : Operation τ) (key key' : CanonicalKey),
      op.key? = some key → op'.key? = some key' → key ≠ key' → c.Commute op op') ∧
    (∀ ops ops' : List (Operation τ), OnOwnFiles ops → ops.Perm ops' → c.SameInOrder ops ops') := by
  refine ⟨?_, fun ops ops' hown hperm => c.sameInOrder hown hperm⟩
  intro op op' key key' hkey hkey' hne
  have hown : OnOwnFiles [op, op'] := by
    constructor
    case onFile => simp [hkey, hkey']
    case distinct => simp [hkey, hkey', hne]
  constructor
  case first =>
    have hsame : c.SameAt key (op'.run c).2 := Operation.run_sameAt hkey' hne.symm
    exact (Operation.outcome_congr hkey hsame).symm
  case second =>
    have hsame : c.SameAt key' (op.run c).2 := Operation.run_sameAt hkey hne
    exact (Operation.outcome_congr hkey' hsame).symm
  case behind => exact c.after_perm hown (.swap op' op [])

/-- A pass that gives up one file, changes another and adds two, made backwards: the new entries
arrive in the other order. -/
theorem backward_pass_commutes :
    ∃ (c : Cache ModuleTarget) (ops : List (Operation ModuleTarget)),
      c = Cache.after { label := "module" }
        [.resolve ⟨['m']⟩ ["a", "b"] Loader.late 1, .resolve ⟨['n']⟩ ["c"] Loader.late 0] ∧
      ops = [.resolve ⟨['n']⟩ ["c", "d"] Loader.late 1, .remove ⟨['m']⟩,
        .resolve ⟨['j']⟩ ["a", "a"] Loader.late 0, .resolve ⟨['k']⟩ ["b"] Loader.late 1] ∧
      OnOwnFiles ops ∧ (c.after ops).files.keys ≠ (c.after ops.reverse).files.keys ∧
      c.SameInOrder ops ops.reverse ∧
      c.Commute (.remove ⟨['m']⟩) (.resolve ⟨['n']⟩ ["c", "d"] Loader.late 1) := by
  let c : Cache ModuleTarget := Cache.after { label := "module" }
    [.resolve ⟨['m']⟩ ["a", "b"] Loader.late 1, .resolve ⟨['n']⟩ ["c"] Loader.late 0]
  let ops : List (Operation ModuleTarget) :=
    [.resolve ⟨['n']⟩ ["c", "d"] Loader.late 1, .remove ⟨['m']⟩,
      .resolve ⟨['j']⟩ ["a", "a"] Loader.late 0, .resolve ⟨['k']⟩ ["b"] Loader.late 1]
  have hown : OnOwnFiles ops := by
    constructor
    case onFile => simp [ops, Operation.key?]
    case distinct => decide
  obtain ⟨htwo, hpass⟩ := different_files_commute c
  refine ⟨c, ops, rfl, rfl, hown, by decide +kernel, ?_, ?_⟩
  · exact hpass ops ops.reverse hown ops.reverse_perm.symm
  · exact htwo _ _ ⟨['m']⟩ ⟨['n']⟩ rfl rfl (by decide)

end NameResolution
