import NameResolution.Proofs.Cache.Answers
import NameResolution.Proofs.Cache.History

/-!
# News over the life of an entry

A batch says whether it changed its file's entry: whether some answer of the loader differs
from the resolution that it replaces. Two resolutions are compared by their targets, which
either may lack (`Resolution.confirms`); but the loader is asked only for unknown names and
for provisional misses, so two targets are never compared, and the flag comes down to new
names and to misses that were undone (`flag_tells_news`).

What the flag does not tell cannot have happened: as long as a file keeps a name, the name
keeps its target (`Cache.after_keeps`), and a batch that is given again, with a loader that
answers as before, leaves everything as it is (`Entry.rebuilt_again`).
-/

namespace NameResolution

variable {σ τ : Type}

/-- Is it a miss that a new file at one of the probed places may undo? -/
def Resolution.isProvisional (r : Resolution τ) : Bool := r.target.isNone && !r.failed.isEmpty

/-- A provisional miss has no target. -/
theorem Resolution.target_of_isProvisional {r : Resolution τ} (h : r.isProvisional = true) :
    r.target = none := by
  simp only [isProvisional, Bool.and_eq_true] at h
  simpa using h.1

/-- A known name is asked for just if it is a provisional miss. -/
theorem mustAsk_of_some {previous : Entry τ} {n : String} {r : Resolution τ}
    (h : previous.get? n = some r) : mustAsk previous n = r.isProvisional := by
  simp [mustAsk, h, Resolution.isReusable?, Resolution.isReusable, Resolution.isProvisional]

theorem mustAsk_of_none {previous : Entry τ} {n : String} (h : previous.get? n = none) :
    mustAsk previous n = true := by
  simp [mustAsk, h, Resolution.isReusable?]

/-! ## An entry built again -/

/-- Does a second batch get from its loader, for every name it asks for, the resolution that the
first batch got? -/
def Entry.AnswersAgain {σ' : Type} (previous : Entry τ) (names : List String) (load : Loader σ τ)
    (state : σ) (load' : Loader σ' τ) (state' : σ') : Prop :=
  ∀ n answer',
    (n, answer') ∈
      (load'.askAll ((previous.rebuilt names load state).toAsk names) state').1 →
    ∃ answer, (n, answer) ∈ (load.askAll (previous.toAsk names) state).1 ∧
      answer'.value = answer.value

/-- A batch given again, with a loader that answers as before, leaves the entry as it is. -/
theorem Entry.rebuilt_again {σ' : Type} {previous : Entry τ} {names : List String}
    {load : Loader σ τ} {state : σ} {load' : Loader σ' τ} {state' : σ'}
    (hagain : previous.AnswersAgain names load state load' state') :
    (previous.rebuilt names load state).rebuilt names load' state' =
      previous.rebuilt names load state := by
  let next := previous.rebuilt names load state
  refine Table.ext_get? ?_ fun n => ?_
  · rw [rebuilt_keys, rebuilt_keys]
  · by_cases hn : n ∈ names
    · cases hask : mustAsk next n with
      | false =>
        obtain ⟨r, hr, hreuse⟩ := mustAsk_eq_false_iff.mp hask
        rw [rebuilt_kept load' state' hr hreuse hn, hr]
      | true =>
        -- the loader is asked again, and says what it said
        have hmem := (next.mem_toAsk names).mpr ⟨hn, hask⟩
        obtain ⟨answer', hanswer'⟩ := next.exists_answer names load' state' hmem
        obtain ⟨answer, hanswer, heq⟩ := hagain n answer' (Table.mem_of_look hanswer')
        rw [next.rebuilt_of_asked names load' state' (Table.mem_of_look hanswer'), heq,
          previous.rebuilt_of_asked names load state hanswer]
    · rw [rebuilt_get?, if_neg hn, rebuilt_get?, if_neg hn]

/-! ## The flag -/

variable [Target τ]

/-- A name changes the entry just if the loader was asked for it and does not confirm the previous
resolution. -/
theorem serve_isChange_eq (same : τ → τ → Bool) (previous : Entry τ) (load : Loader σ τ)
    (name : String) (p : Progress σ τ) :
    (serve previous load name p).1.isChange previous =
      ((serve previous load name p).1.isAsked &&
        !(serve previous load name p).1.resolution.confirms same
          (previous.get? (serve previous load name p).1.name)) := by
  rcases serve_cases previous load name p with ⟨_, _, hs⟩ | ⟨_, _, _, _, hs⟩ | ⟨_, hm, hs⟩
  · rw [hs]
    rfl
  · rw [hs]
    rfl
  · rw [hs]
    cases hp : previous.get? name with
    | none => simp [Served.isChange, Served.isAsked, Resolution.confirms, hp]
    | some r =>
      -- the previous entry has a miss, or the loader would not be asked
      rw [mustAsk_of_some hp] at hm
      have hmiss := Resolution.target_of_isProvisional hm
      simp [Served.isChange, Served.isAsked, hp, Resolution.confirms_of_miss _ hmiss]

/-- The flag is raised just if some answer of the loader does not confirm what it replaces. -/
theorem Cache.changed_eq (same : τ → τ → Bool) (c : Cache τ) (key : CanonicalKey)
    (names : List String) (load : Loader σ τ) (state : σ) :
    (c.resolveNames key names load state).1.value.changed =
      (load.askAll ((c.entry key).toAsk names) state).1.any fun (n, answer) =>
        !answer.value.confirms same ((c.entry key).get? n) := by
  have hdialogue := serveAll_askAll (c.entry key) load names ⟨Table.empty, state⟩
  rw [unserved_empty] at hdialogue
  rw [Entry.toAsk, hdialogue, List.any_map, List.any_filter]
  show (c.servedNames key names load state).any (Served.isChange (c.entry key)) = _
  rw [Bool.eq_iff_iff, List.any_eq_true, List.any_eq_true]
  have hserved : ∀ s ∈ (serveAll (c.entry key) load names ⟨Table.empty, state⟩).1,
      s.isChange (c.entry key) =
        (s.isAsked && !s.resolution.confirms same ((c.entry key).get? s.name)) :=
    serveAll_forall (serve_isChange_eq same (c.entry key) load) names _
  exact exists_congr fun s => and_congr_right fun hs => by rw [hserved s hs]; rfl

/-- The flag is raised just if a name of the batch is new to the entry, or has a provisional miss
there that the loader now has a target for. -/
theorem Cache.changed_iff (c : Cache τ) (key : CanonicalKey) (names : List String)
    (load : Loader σ τ) (state : σ) :
    (c.resolveNames key names load state).1.value.changed = true ↔
      ∃ n ∈ names, (c.entry key).get? n = none ∨
        ∃ r, (c.entry key).get? n = some r ∧ r.isProvisional = true ∧
          ∃ answer, (n, answer) ∈ (load.askAll ((c.entry key).toAsk names) state).1 ∧
            answer.value.target.isSome = true := by
  rw [c.changed_eq (fun _ _ => true), List.any_eq_true]
  constructor
  · rintro ⟨⟨n, answer⟩, hanswer, hnews⟩
    have hasked := List.mem_map_of_mem (f := Prod.fst) hanswer
    rw [map_fst_askAll, Entry.mem_toAsk] at hasked
    refine ⟨n, hasked.1, ?_⟩
    cases hprev : (c.entry key).get? n with
    | none => exact .inl rfl
    | some r =>
      have hprovisional : r.isProvisional = true := by
        rw [← mustAsk_of_some hprev]
        exact hasked.2
      have hmiss : r.target = none := Resolution.target_of_isProvisional hprovisional
      refine .inr ⟨r, rfl, hprovisional, answer, hanswer, ?_⟩
      cases htarget : answer.value.target with
      | none => simp [Resolution.confirms, hprev, hmiss, htarget] at hnews
      | some t => rfl
  · rintro ⟨n, hn, hnone | ⟨r, hprev, hprovisional, answer, hanswer, htarget⟩⟩
    · have hask := ((c.entry key).mem_toAsk names).mpr ⟨hn, mustAsk_of_none hnone⟩
      obtain ⟨answer, hanswer⟩ := (c.entry key).exists_answer names load state hask
      refine ⟨(n, answer), Table.mem_of_look hanswer, ?_⟩
      simp [Resolution.confirms, hnone]
    · refine ⟨(n, answer), hanswer, ?_⟩
      have hmiss : r.target = none := Resolution.target_of_isProvisional hprovisional
      obtain ⟨t, ht⟩ := Option.isSome_iff_exists.mp htarget
      simp [Resolution.confirms, hprev, hmiss, ht]

/-! ## Names that stay -/

/-- Does the file with this key still have the name behind the operation, if it had it before? -/
def Operation.keepsName (key : CanonicalKey) (n : String) : Operation τ → Bool
  | .resolve k names _ _ => decide (k = key → n ∈ names)
  | .remove k => decide (k ≠ key)
  | .clear => false

/-- An operation that keeps a name keeps its reusable resolution. -/
theorem Operation.run_keeps {c : Cache τ} {key : CanonicalKey} {n : String} {r : Resolution τ}
    (hentry : (c.entry key).get? n = some r) (hreuse : r.isReusable = true) {op : Operation τ}
    (hkeeps : op.keepsName key n = true) : (((op.run c).2).entry key).get? n = some r := by
  cases op with
  | resolve k names load state =>
    show (((c.resolveNames k names load state).2.1).entry key).get? n = some r
    rw [Cache.entry, Cache.resolveNames_files]
    split
    next hk =>
      subst hk
      have hn : n ∈ names := by simpa [keepsName] using hkeeps
      exact rebuilt_kept load state hentry hreuse hn
    next => exact hentry
  | remove k =>
    have hk : k ≠ key := by simpa [keepsName] using hkeeps
    show ((c.remove k).2.entry key).get? n = some r
    rw [Cache.entry, Cache.remove_files, if_neg hk]
    exact hentry
  | clear => cases hkeeps

/-- As long as a file keeps a name, the name keeps its reusable resolution. -/
theorem Cache.after_keeps {c : Cache τ} {key : CanonicalKey} {n : String} {r : Resolution τ}
    (hentry : (c.entry key).get? n = some r) (hreuse : r.isReusable = true)
    (ops : List (Operation τ)) (hkeeps : ∀ op ∈ ops, op.keepsName key n = true) :
    ((c.after ops).entry key).get? n = some r := by
  induction ops generalizing c with
  | nil => exact hentry
  | cons op ops ih =>
    rw [List.forall_mem_cons] at hkeeps
    exact ih (Operation.run_keeps hentry hreuse hkeeps.1) hkeeps.2

/-! ## A batch given again -/

/-- A batch given again, with a loader that answers as before, gives the same targets, raises no
flag and changes no entry. -/
theorem Cache.resolveNames_again {σ' : Type} (c : Cache τ) (key : CanonicalKey)
    (names : List String) (load : Loader σ τ) (state : σ) (load' : Loader σ' τ) (state' : σ')
    (hagain : (c.entry key).AnswersAgain names load state load' state') :
    let first := c.resolveNames key names load state
    let second := first.2.1.resolveNames key names load' state'
    second.1.value = { first.1.value with changed := false } ∧
      second.2.1.files = first.2.1.files := by
  intro first second
  have hfirst : first.2.1.files.get? key = some ((c.entry key).rebuilt names load state) := by
    rw [c.resolveNames_files, if_pos rfl]
  have hentry : first.2.1.entry key = (c.entry key).rebuilt names load state := by
    rw [entry, hfirst]
    rfl
  have hrebuilt : (first.2.1.entry key).rebuilt names load' state' = first.2.1.entry key := by
    rw [hentry]
    exact Entry.rebuilt_again hagain
  have htargets : second.1.value.targets = first.1.value.targets := by
    have hsecond := first.2.1.resolveNames_targets key names load' state'
    rw [hrebuilt, hentry, ← c.resolveNames_targets key names load state] at hsecond
    exact (List.map_inj_right fun _ _ h => Option.some.inj h).mp hsecond
  have hchanged : second.1.value.changed = false := by
    rw [← Bool.not_eq_true, first.2.1.changed_iff]
    rintro ⟨n, hn, hnone | ⟨r, hprev, hprovisional, answer, hanswer, htarget⟩⟩
    · have hknown := (rebuilt_isSome (c.entry key) names load state n).mpr hn
      rw [← hentry, hnone] at hknown
      cases hknown
    · -- what the loader says now is the miss that it said before
      have hsame := Entry.rebuilt_of_asked _ names load' state' hanswer
      rw [hrebuilt, hprev, Option.some.injEq] at hsame
      rw [← hsame] at htarget
      simp [Resolution.target_of_isProvisional hprovisional] at htarget
  refine ⟨?_, ?_⟩
  · show (⟨second.1.value.targets, second.1.value.changed⟩ : Batch τ) = _
    rw [htargets, hchanged]
  · show first.2.1.files.insert key ((first.2.1.entry key).rebuilt names load' state') = _
    rw [hrebuilt, hentry]
    exact Table.insert_of_get? hfirst

/-! ## The first batch of a file -/

/-- The names that an operation brings for the file with this key. -/
def Operation.namesFor (key : CanonicalKey) : Operation τ → List String
  | .resolve k names _ _ => if k = key then names else []
  | .remove _ | .clear => []

/-- An operation without names for a file leaves its empty entry empty. -/
theorem Operation.run_entry_empty {c : Cache τ} {key : CanonicalKey}
    (hempty : c.entry key = Table.empty) {op : Operation τ} (hnone : op.namesFor key = []) :
    (op.run c).2.entry key = Table.empty := by
  cases op with
  | resolve k names load state =>
    show (c.resolveNames k names load state).2.1.entry key = Table.empty
    rw [Cache.entry, Cache.resolveNames_files]
    split
    next hk =>
      have hnames : names = [] := by simpa [namesFor, hk] using hnone
      subst hnames
      rfl
    next => exact hempty
  | remove k =>
    show (c.remove k).2.entry key = Table.empty
    rw [Cache.entry, Cache.remove_files]
    split
    next => rfl
    next => exact hempty
  | clear => rfl

/-- A run without names for a file leaves its empty entry empty. -/
theorem Cache.after_entry_empty {c : Cache τ} {key : CanonicalKey}
    (hempty : c.entry key = Table.empty) (ops : List (Operation τ))
    (hnone : ∀ op ∈ ops, op.namesFor key = []) : (c.after ops).entry key = Table.empty := by
  induction ops generalizing c with
  | nil => exact hempty
  | cons op ops ih =>
    rw [List.forall_mem_cons] at hnone
    exact ih (Operation.run_entry_empty hempty hnone.1) hnone.2

/-! ## What the flag tells -/

/-- What the flag of a batch tells, and what follows where it is not raised. -/
structure Cache.FlagTells (c : Cache τ) (key : CanonicalKey) (names : List String)
    (load : Loader σ τ) (state : σ) : Prop where
  /-- It is raised just if some answer of the loader does not confirm the resolution that it
  replaces, however targets are compared. -/
  compared : ∀ same : τ → τ → Bool, (c.resolveNames key names load state).1.value.changed =
    (load.askAll ((c.entry key).toAsk names) state).1.any fun (n, answer) =>
      !answer.value.confirms same ((c.entry key).get? n)
  /-- It is raised just if a name of the batch is new to the entry, or has a provisional miss there
  that the loader now has a target for. -/
  news : (c.resolveNames key names load state).1.value.changed = true ↔
    ∃ n ∈ names, (c.entry key).get? n = none ∨
      ∃ r, (c.entry key).get? n = some r ∧ r.isProvisional = true ∧
        ∃ answer, (n, answer) ∈ (load.askAll ((c.entry key).toAsk names) state).1 ∧
          answer.value.target.isSome = true
  /-- As long as the file keeps a name with a target, the name keeps this target. -/
  settled : ∀ n r, (c.entry key).get? n = some r → r.target.isSome = true →
    ∀ ops : List (Operation τ), (∀ op ∈ ops, op.keepsName key n = true) →
      ((c.after ops).entry key).get? n = some r
  /-- The batch given again, with a loader that answers as before, gives the same targets, raises
  no flag and changes no entry. -/
  again : ∀ {σ' : Type} (load' : Loader σ' τ) (state' : σ'),
    (c.entry key).AnswersAgain names load state load' state' →
      let first := c.resolveNames key names load state
      let second := first.2.1.resolveNames key names load' state'
      second.1.value = { first.1.value with changed := false } ∧
        second.2.1.files = first.2.1.files
  /-- The first batch with names is a change for a file of which nothing is known. -/
  first : c.entry key = Table.empty → ∀ ops : List (Operation τ),
    (∀ op ∈ ops, op.namesFor key = []) → names ≠ [] →
      ((c.after ops).resolveNames key names load state).1.value.changed = true

/-- **The flag of a batch tells of news, and of nothing else.** For every cache, file, list of names
and loader, it is raised exactly when the batch has a name that the file's entry does not know, or
finds a target for a provisional miss. So a target stays as long as its name does, a batch given
again is no change, and the first batch with names always is. -/
theorem flag_tells_news (c : Cache τ) (key : CanonicalKey) (names : List String)
    (load : Loader σ τ) (state : σ) : c.FlagTells key names load state where
  compared same := c.changed_eq same key names load state
  news := c.changed_iff key names load state
  settled n r hentry htarget ops hkeeps :=
    Cache.after_keeps hentry (by simp [Resolution.isReusable, htarget]) ops hkeeps
  again load' state' hagain := c.resolveNames_again key names load state load' state' hagain
  first hempty ops hnone hnames := by
    rw [Cache.changed_iff, Cache.after_entry_empty hempty ops hnone]
    obtain ⟨n, hn⟩ := List.exists_mem_of_ne_nil names hnames
    exact ⟨n, hn, .inl (Table.get?_empty n)⟩

/-- A batch with a new name, given twice, and a loader that misses it both times: it brings news,
and given again it brings none. -/
theorem missed_flag_tells_news :
    ∃ (c : Cache ModuleTarget) (key : CanonicalKey) (names : List String),
      c = Cache.after { label := "module" } [.resolve key ["a", "b"] Loader.late 1] ∧
      names = ["b", "c", "a", "c"] ∧
      (c.resolveNames key names Loader.late 0).1.value.changed = true ∧
      ((c.resolveNames key names Loader.late 0).2.1.entry key).toAsk names = ["c"] ∧
      (c.entry key).AnswersAgain names Loader.late 0 Loader.late 0 ∧
      ((c.resolveNames key names Loader.late 0).2.1.resolveNames key names
        Loader.late 0).1.value.changed = false := by
  let c : Cache ModuleTarget :=
    Cache.after { label := "module" } [.resolve ⟨['m']⟩ ["a", "b"] Loader.late 1]
  let names := ["b", "c", "a", "c"]
  have hasked : ((c.entry ⟨['m']⟩).rebuilt names Loader.late 0).toAsk names =
      (c.entry ⟨['m']⟩).toAsk names := by decide +kernel
  have hagain : (c.entry ⟨['m']⟩).AnswersAgain names Loader.late 0 Loader.late 0 := by
    intro n answer h
    rw [hasked] at h
    exact ⟨answer, h, rfl⟩
  refine ⟨c, ⟨['m']⟩, names, rfl, rfl, by decide +kernel, by decide +kernel, hagain, ?_⟩
  have hsecond := ((flag_tells_news c ⟨['m']⟩ names Loader.late 0).again _ _ hagain).1
  exact congrArg Batch.changed hsecond

end NameResolution
