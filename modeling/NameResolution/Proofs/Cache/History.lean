import NameResolution.Proofs.Cache.Serving

/-!
# A cache as its history tells it

A run of a cache is a list of operations, each batch with a loader of its own. Its
transcript tells what can be seen of the run, event by event, and no table. The
rule that the cache is held to reads the transcript only: a batch for a file
depends on the *latest* batch for that file, the last one behind the last
removal of the file and the last clearing, and on nothing else.
Every batch of every run keeps the rule (`Agrees.transcript_follows`).

The invariant behind it is `Agrees`: the table holds for every file what the
latest batch for it ended with. Each operation keeps it (`Agrees.run`).
-/

namespace NameResolution

variable {τ : Type}

/-- One operation on a cache. A batch brings its loader, and the state this loader is in. -/
inductive Operation (τ : Type) : Type 1 where
  | resolve {σ : Type} (key : CanonicalKey) (names : List String) (load : Loader σ τ) (state : σ)
  | remove (key : CanonicalKey)
  | clear

structure Pass (τ : Type) where
  key : CanonicalKey
  names : List String
  /-- The questions that went to the loader, each with its answer, in their order. -/
  asked : List (String × Resolution τ)
  /-- The answer: one slot per name. -/
  targets : List (Option τ)
  /-- The resolutions the batch ended with. -/
  entry : Entry τ

def Pass.result? (p : Pass τ) (name : String) : Option (Resolution τ) := p.entry.get? name

inductive Event (τ : Type) where
  | batch (pass : Pass τ)
  | removed (key : CanonicalKey)
  | cleared

/-- Carries out one operation. The loader's questions are taken from a second batch, whose loader
writes them down. -/
def Operation.run [Target τ] (c : Cache τ) : Operation τ → Event τ × Cache τ
  | .resolve key names load state =>
    let (batch, after, _) := c.resolveNames key names load state
    let (_, _, _, asked) := c.resolveNames key names load.recorded (state, [])
    (.batch ⟨key, names, asked, batch.value.targets, (after.files.get? key).getD Table.empty⟩,
      after)
  | .remove key => (.removed key, (c.remove key).2)
  | .clear => (.cleared, c.clear.2)

/-- What can be seen of a run, the first operation first. -/
def transcript [Target τ] (c : Cache τ) : List (Operation τ) → List (Event τ)
  | [] => []
  | op :: ops => (op.run c).1 :: transcript (op.run c).2 ops

/-- The cache behind a run. -/
def Cache.after [Target τ] (c : Cache τ) (ops : List (Operation τ)) : Cache τ :=
  ops.foldl (fun c op => (op.run c).2) c

theorem Cache.after_cons [Target τ] (c : Cache τ) (op : Operation τ) (ops : List (Operation τ)) :
    c.after (op :: ops) = (op.run c).2.after ops := rfl

/-! ## The rule -/

/-- Does the event drop what is known of a file? -/
def Event.drops (key : CanonicalKey) : Event τ → Bool
  | .batch _ => false
  | .removed k => k = key
  | .cleared => true

/-- The batch for a file, if the event is one. -/
def Event.passFor? (key : CanonicalKey) : Event τ → Option (Pass τ)
  | .batch p => if p.key = key then some p else none
  | _ => none

/-- The last batch for a file behind the last removal of the file and the last clearing. -/
def latest? (key : CanonicalKey) (past : List (Event τ)) : Option (Pass τ) :=
  (past.reverse.takeWhile fun e => !e.drops key).findSome? (Event.passFor? key)

/-- Is a name left to the loader? It is without an earlier batch, when that batch did not have the
name, and when it ended with a miss that had failed probes. -/
def isOpen (earlier : Option (Pass τ)) (name : String) : Bool :=
  match earlier with
  | none => true
  | some e =>
    decide (name ∉ e.names) ||
      (e.result? name).any fun r => r.target.isNone && !r.failed.isEmpty

/-- The rule for a batch that comes after an earlier one. -/
structure Pass.Follows (earlier : Option (Pass τ)) (p : Pass τ) : Prop where
  /-- The loader is asked for the open names, once each and in the order of first occurrence. -/
  asked : p.asked.map Prod.fst = p.names.eraseDups.filter (isOpen earlier)
  /-- A name that is asked for ends with the loader's answer. -/
  loaded : ∀ a ∈ p.asked, p.result? a.1 = some a.2
  /-- Any other name ends with what the earlier batch ended with. -/
  kept : ∀ n ∈ p.names, isOpen earlier n = false →
    ∃ e, earlier = some e ∧ ∃ r, e.result? n = some r ∧ p.result? n = some r
  /-- Every slot of the answer is the target of what the batch ended with for its name. -/
  targets : p.targets.map some = p.names.map fun n => (p.result? n).map Resolution.target
  /-- The batch ended with something for its names, and for no others. -/
  known : ∀ n, (p.result? n).isSome = true ↔ n ∈ p.names

/-! ## The table and the history -/

/-- An event behind a history is the latest for its file, drops it, or leaves it as it was. -/
theorem latest?_concat (key : CanonicalKey) (past : List (Event τ)) (e : Event τ) :
    latest? key (past ++ [e]) =
      match e with
      | .batch p => if p.key = key then some p else latest? key past
      | .removed k => if k = key then none else latest? key past
      | .cleared => none := by
  unfold latest?
  rw [List.reverse_concat]
  cases e with
  | batch p =>
    rw [List.takeWhile_cons_of_pos (by simp [Event.drops]), List.findSome?_cons]
    by_cases h : p.key = key <;> simp [Event.passFor?, h]
  | removed k =>
    by_cases h : k = key
    · rw [List.takeWhile_cons_of_neg (by simp [Event.drops, h])]
      simp [h]
    · rw [List.takeWhile_cons_of_pos (by simp [Event.drops, h]), List.findSome?_cons]
      simp [Event.passFor?, h]
  | cleared =>
    rw [List.takeWhile_cons_of_neg (by simp [Event.drops])]
    simp

/-- The table holds for every file what the latest batch for it ended with, and that batch ended
with something for just its names. -/
structure Agrees (past : List (Event τ)) (c : Cache τ) : Prop where
  files : ∀ key, c.files.get? key = (latest? key past).map Pass.entry
  known : ∀ key p, latest? key past = some p → ∀ n, (p.result? n).isSome = true ↔ n ∈ p.names

/-- A new cache agrees with an empty past. -/
theorem agrees_new (label : String) : Agrees (τ := τ) [] { label := label } where
  files _ := rfl
  known _ _ h := by cases h

/-- The entry that a batch finds answers a name exactly when the latest batch leaves it closed. -/
theorem Agrees.mustAsk_eq {past : List (Event τ)} {c : Cache τ} (h : Agrees past c)
    (key : CanonicalKey) (name : String) :
    mustAsk (c.entry key) name = isOpen (latest? key past) name := by
  rw [Cache.entry, h.files]
  cases he : latest? key past with
  | none => rfl
  | some e =>
    -- a name without a resolution is one that the latest batch did not have
    have hknown := h.known key e he name
    show mustAsk e.entry name = _
    cases hr : e.entry.get? name with
    | none =>
      have hn : name ∉ e.names := fun hn => by
        have hsome := hknown.mpr hn
        rw [Pass.result?, hr] at hsome
        cases hsome
      simp [mustAsk, isOpen, hr, hn, Resolution.isReusable?]
    | some r =>
      have hn : name ∈ e.names := hknown.mp (by rw [Pass.result?, hr]; rfl)
      simp [mustAsk, isOpen, Pass.result?, hr, hn, Resolution.isReusable?, Resolution.isReusable]

variable [Target τ]

/-- What can be seen of a batch, and where it leads, in terms of the entry that it finds. -/
theorem Operation.run_resolve {σ : Type} (c : Cache τ) (key : CanonicalKey) (names : List String)
    (load : Loader σ τ) (state : σ) :
    (Operation.resolve key names load state).run c =
      (.batch
        { key := key
          names := names
          asked := (c.entry key).questions names load state
          targets := (c.resolveNames key names load state).1.value.targets
          entry := (c.entry key).rebuilt names load state },
       (c.resolveNames key names load state).2.1) := by
  have hentry : ((c.resolveNames key names load state).2.1.files.get? key).getD Table.empty =
      (c.entry key).rebuilt names load state := by
    rw [c.resolveNames_files, if_pos rfl]
    rfl
  rw [← hentry]
  rfl

/-- In a cache that agrees with its past, a batch follows the rule. -/
theorem Agrees.batch_follows {past : List (Event τ)} {c : Cache τ} (h : Agrees past c)
    (op : Operation τ) {p : Pass τ} (hp : (op.run c).1 = .batch p) :
    p.Follows (latest? p.key past) := by
  cases op with
  | remove key => cases hp
  | clear => cases hp
  | resolve key names load state =>
    rw [Operation.run_resolve] at hp
    cases hp
    -- the entry that the batch finds leaves open what the latest batch leaves open
    have hopen : mustAsk (c.entry key) = isOpen (latest? key past) := funext (h.mustAsk_eq key)
    refine ⟨?_, ?_, ?_, ?_, ?_⟩
    · rw [← hopen]
      exact questions_names _ _ _ _
    · intro a ha
      exact rebuilt_questions _ _ _ _ ha
    · intro n hn hclosed
      rw [← hopen, mustAsk_eq_false_iff] at hclosed
      obtain ⟨r, hr, hreuse⟩ := hclosed
      have hfiles := h.files key
      cases he : latest? key past with
      | none =>
        rw [Cache.entry, hfiles, he] at hr
        cases hr
      | some e =>
        refine ⟨e, rfl, r, ?_, rebuilt_kept load state hr hreuse hn⟩
        rw [Cache.entry, hfiles, he] at hr
        exact hr
    · exact c.resolveNames_targets key names load state
    · exact rebuilt_isSome _ _ _ _

/-- Every operation keeps a cache in agreement with its past. -/
theorem Agrees.run {past : List (Event τ)} {c : Cache τ} (h : Agrees past c) (op : Operation τ) :
    Agrees (past ++ [(op.run c).1]) (op.run c).2 := by
  cases op with
  | resolve key names load state =>
    rw [Operation.run_resolve]
    constructor
    · intro k
      rw [latest?_concat, c.resolveNames_files]
      by_cases hk : key = k
      · simp [hk]
      · simp only [if_neg hk]
        exact h.files k
    · intro k p hp
      rw [latest?_concat] at hp
      by_cases hk : key = k
      · simp only [if_pos hk, Option.some.injEq] at hp
        rw [← hp]
        exact rebuilt_isSome _ _ _ _
      · simp only [if_neg hk] at hp
        exact h.known k p hp
  | remove key =>
    constructor
    · intro k
      show (c.remove key).2.files.get? k = (latest? k (past ++ [.removed key])).map Pass.entry
      rw [latest?_concat, c.remove_files]
      by_cases hk : key = k
      · simp [hk]
      · simp only [if_neg hk]
        exact h.files k
    · intro k p hp
      have hp' : (if key = k then none else latest? k past) = some p := by
        rw [← hp]
        exact (latest?_concat k past (.removed key)).symm
      by_cases hk : key = k
      · simp [hk] at hp'
      · rw [if_neg hk] at hp'
        exact h.known k p hp'
  | clear =>
    constructor
    · intro k
      show c.clear.2.files.get? k = (latest? k (past ++ [.cleared])).map Pass.entry
      rw [latest?_concat, c.clear_files]
      rfl
    · intro k p hp
      have hp' : none = some p := by
        rw [← hp]
        exact (latest?_concat k past .cleared).symm
      cases hp'

/-- Every batch of a run keeps the rule, whatever happened before the run. -/
theorem Agrees.transcript_follows {p : Pass τ} {after : List (Event τ)} :
    ∀ (ops : List (Operation τ)) {past : List (Event τ)} {c : Cache τ}, Agrees past c →
      ∀ before : List (Event τ), transcript c ops = before ++ .batch p :: after →
        p.Follows (latest? p.key (past ++ before))
  | [], _, _, _, before, hrun => by simp [transcript] at hrun
  | op :: ops, past, c, h, [], hrun => by
    rw [transcript, List.nil_append, List.cons.injEq] at hrun
    rw [List.append_nil]
    exact h.batch_follows op hrun.1
  | op :: ops, past, c, h, e :: before, hrun => by
    rw [transcript, List.cons_append, List.cons.injEq] at hrun
    -- the first event joins the history, and the rest of the run goes on behind it
    have hrest := (h.run op).transcript_follows ops before hrun.2
    rwa [hrun.1, List.append_assoc, List.singleton_append] at hrest

/-- **A batch depends on the latest batch for its file, and on nothing else.** In every run of a
cache, whatever the loaders do, every batch keeps the rule with respect to the last batch for its
file behind the last removal of the file and the last clearing. -/
theorem batch_follows_latest (label : String) (ops : List (Operation τ))
    (before : List (Event τ)) (p : Pass τ) (after : List (Event τ))
    (hrun : transcript { label := label } ops = before ++ .batch p :: after) :
    p.Follows (latest? p.key before) :=
  (agrees_new label).transcript_follows ops before hrun

/-- A loader that misses the first name it is asked for and finds every other. -/
def Loader.late : Loader Nat ModuleTarget := fun name asked =>
  let place := Path.ofString name
  (⟨if asked = 0 then .notFound [place] else .found ⟨place, false⟩ [], []⟩, asked + 1)

/-- A batch that finds a provisional miss, a target and a new name, each of the last two given
twice, with batches and removals of another file in between. -/
theorem late_batch_follows_latest :
    ∃ before p after,
      transcript { label := "module" }
          [.resolve ⟨['m']⟩ ["a", "b"] Loader.late 0, .resolve ⟨['n']⟩ ["c"] Loader.late 1,
           .remove ⟨['n']⟩, .resolve ⟨['m']⟩ ["b", "c", "a", "c", "b"] Loader.late 7,
           .clear] =
        before ++ .batch p :: after ∧
      before.length = 3 ∧ p.asked.map Prod.fst = ["c", "a"] ∧
      p.Follows (latest? p.key before) := by
  have hrun := batch_follows_latest "module"
    [.resolve ⟨['m']⟩ ["a", "b"] Loader.late 0, .resolve ⟨['n']⟩ ["c"] Loader.late 1,
     .remove ⟨['n']⟩, .resolve ⟨['m']⟩ ["b", "c", "a", "c", "b"] Loader.late 7, .clear]
    [_, _, _] _ [.cleared] rfl
  exact ⟨_, _, _, rfl, rfl, rfl, hrun⟩

end NameResolution
