import NameResolution.Cache

/-!
# What the operations of a cache leave behind

A batch, said without its loop. `serve_cases` lists what serving one name can do;
everything else is read off it, first for the names one after the other, then for
a whole batch. For the entry that a batch builds (`Entry.rebuilt`):

- `rebuilt_isSome`: it knows the batch's names and no others;
- `rebuilt_kept`: a name that the previous entry can answer keeps its resolution;
- `rebuilt_origin`: every other resolution comes from the loader;
- `resolveNames_targets`: a slot of the answer holds what the entry says.

The questions a loader is asked are made visible by `Loader.recorded`, which
answers like the loader and writes every question down. `questions_names` says
which they are; writing them down changes nothing (`serveAll_recorded`).
-/

namespace NameResolution

variable {σ τ : Type}

/-- Is the name left to the loader, because the previous entry cannot answer it? -/
def mustAsk (previous : Entry τ) (name : String) : Bool :=
  !Resolution.isReusable? (previous.get? name)

/-- What has to be asked for again has no target. -/
theorem Resolution.target_of_not_isReusable {r : Resolution τ} (h : r.isReusable = false) :
    r.target = none := by
  simp only [isReusable, Bool.or_eq_false_iff] at h
  simpa using h.1

/-- A miss is confirmed just by a miss, however targets are compared. -/
theorem Resolution.confirms_of_miss (same : τ → τ → Bool) {old : Resolution τ}
    (hmiss : old.target = none) (new : Resolution τ) :
    new.confirms same (some old) = new.target.isNone := by
  rw [confirms, hmiss]
  cases new.target <;> rfl

/-- What serving one name can do: repeat the batch's own answer, keep the previous entry's, or
ask the loader. -/
theorem serve_cases (previous : Entry τ) (load : Loader σ τ) (name : String) (p : Progress σ τ) :
    (∃ r, p.fresh.get? name = some r ∧
      serve previous load name p = (⟨name, .batch, r, []⟩, p)) ∨
    (∃ r, p.fresh.get? name = none ∧ previous.get? name = some r ∧ r.isReusable = true ∧
      serve previous load name p =
        (⟨name, .entry, r, []⟩, { p with fresh := p.fresh.insert name r })) ∨
    (p.fresh.get? name = none ∧ mustAsk previous name = true ∧
      serve previous load name p =
        (⟨name, if (previous.get? name).isSome then .retry else .loader,
          (load name p.loader).1.value, (load name p.loader).1.seen⟩,
         ⟨p.fresh.insert name (load name p.loader).1.value, (load name p.loader).2⟩)) := by
  cases hf : p.fresh.get? name with
  | some r => exact .inl ⟨r, rfl, by simp [serve, hf]⟩
  | none =>
    cases hp : previous.get? name with
    | none => exact .inr (.inr ⟨rfl, by simp [mustAsk, hp, Resolution.isReusable?],
        by simp [serve, hf, hp]⟩)
    | some r =>
      cases hr : r.isReusable with
      | true => exact .inr (.inl ⟨r, rfl, rfl, hr, by simp [serve, hf, hp, hr]⟩)
      | false => exact .inr (.inr ⟨rfl, by simp [mustAsk, hp, Resolution.isReusable?, hr],
          by simp [serve, hf, hp, hr]⟩)

/-- A name need not be asked for if the previous entry has a reusable resolution of it. -/
theorem mustAsk_eq_false_iff {previous : Entry τ} {name : String} :
    mustAsk previous name = false ↔
      ∃ r, previous.get? name = some r ∧ r.isReusable = true := by
  cases h : previous.get? name with
  | none => simp [mustAsk, h, Resolution.isReusable?]
  | some r => simp [mustAsk, h, Resolution.isReusable?]

theorem serveAll_cons (previous : Entry τ) (load : Loader σ τ) (name : String)
    (names : List String) (p : Progress σ τ) :
    serveAll previous load (name :: names) p =
      ((serve previous load name p).1 ::
          (serveAll previous load names (serve previous load name p).2).1,
        (serveAll previous load names (serve previous load name p).2).2) :=
  rfl

/-! ## The entry that is built -/

/-- Serving a name writes its resolution into the entry, and changes nothing else of it. -/
theorem serve_fresh (previous : Entry τ) (load : Loader σ τ) (name n : String)
    (p : Progress σ τ) :
    (serve previous load name p).2.fresh.get? n =
      if name = n then some (serve previous load name p).1.resolution else p.fresh.get? n := by
  rcases serve_cases previous load name p with ⟨r, hf, hs⟩ | ⟨r, _, _, _, hs⟩ | ⟨_, _, hs⟩
  · rw [hs]
    split
    next h => rw [← h, hf]
    next => rfl
  · rw [hs, Table.get?_insert]
  · rw [hs, Table.get?_insert]

/-- What the entry says about a name is never taken back. -/
theorem serve_fresh_of_some {previous : Entry τ} {load : Loader σ τ} {name n : String}
    {p : Progress σ τ} {r : Resolution τ} (h : p.fresh.get? n = some r) :
    (serve previous load name p).2.fresh.get? n = some r := by
  rcases serve_cases previous load name p with ⟨_, _, hs⟩ | ⟨_, hf, _, _, hs⟩ | ⟨hf, _, hs⟩
  · rw [hs, h]
  all_goals
    have hne : name ≠ n := fun he => by rw [he, h] at hf; cases hf
    rw [hs, Table.get?_insert, if_neg hne, h]

/-- Nor do further names take it back. -/
theorem serveAll_fresh_of_some {previous : Entry τ} {load : Loader σ τ} {n : String}
    {r : Resolution τ} :
    ∀ (names : List String) {p : Progress σ τ}, p.fresh.get? n = some r →
      (serveAll previous load names p).2.fresh.get? n = some r
  | [], _, h => h
  | _ :: names, _, h => serveAll_fresh_of_some names (serve_fresh_of_some h)

/-- The entry knows the names that were served, and those it knew before. -/
theorem serveAll_fresh_isSome (previous : Entry τ) (load : Loader σ τ) (n : String) :
    ∀ (names : List String) (p : Progress σ τ),
      ((serveAll previous load names p).2.fresh.get? n).isSome =
        (decide (n ∈ names) || (p.fresh.get? n).isSome)
  | [], p => by simp [serveAll]
  | name :: names, p => by
    have ih := serveAll_fresh_isSome previous load n names (serve previous load name p).2
    rw [serveAll_cons, ih, serve_fresh]
    by_cases h : name = n
    · simp [h]
    · have h' : ¬ n = name := fun he => h he.symm
      simp [h, h']

/-- What was served for the names is what the entry says of them in the end. -/
theorem serveAll_resolutions (previous : Entry τ) (load : Loader σ τ) :
    ∀ (names : List String) (p : Progress σ τ),
      (serveAll previous load names p).1.map (fun s => some s.resolution) =
        names.map fun n => (serveAll previous load names p).2.fresh.get? n
  | [], _ => rfl
  | name :: names, p => by
    have ih := serveAll_resolutions previous load names (serve previous load name p).2
    have hname : (serve previous load name p).2.fresh.get? name =
        some (serve previous load name p).1.resolution := by
      rw [serve_fresh, if_pos rfl]
    rw [serveAll_cons, List.map_cons, List.map_cons, ih, serveAll_fresh_of_some names hname]

/-- A reusable resolution of the previous entry is served again. -/
theorem serveAll_kept {previous : Entry τ} {load : Loader σ τ} {n : String} {r : Resolution τ}
    (hprev : previous.get? n = some r) (hr : r.isReusable = true) :
    ∀ (names : List String) {p : Progress σ τ}, n ∈ names → p.fresh.get? n = none →
      (serveAll previous load names p).2.fresh.get? n = some r
  | name :: names, p, hn, hf => by
    rw [serveAll_cons]
    by_cases h : name = n
    · subst h
      -- the name is served from the previous entry now, and that is never taken back
      apply serveAll_fresh_of_some
      rcases serve_cases previous load name p with ⟨_, h', _⟩ | ⟨r', _, h', _, hs⟩ | ⟨_, h', _⟩
      · rw [hf] at h'
        cases h'
      · rw [hs, Table.get?_insert, if_pos rfl, ← h', hprev]
      · rw [mustAsk_eq_false_iff.mpr ⟨r, hprev, hr⟩] at h'
        cases h'
    · have hmem : n ∈ names := (List.mem_cons.mp hn).resolve_left fun he => h he.symm
      refine serveAll_kept hprev hr names hmem ?_
      rw [serve_fresh, if_neg h, hf]

/-- A resolution in the entry was there before, is the previous entry's, or is an answer of the
loader to a name that the previous entry could not answer. -/
theorem serveAll_origin {previous : Entry τ} {load : Loader σ τ} {n : String} {r : Resolution τ} :
    ∀ (names : List String) {p : Progress σ τ},
      (serveAll previous load names p).2.fresh.get? n = some r →
        p.fresh.get? n = some r ∨ (previous.get? n = some r ∧ r.isReusable = true) ∨
          (mustAsk previous n = true ∧ ∃ state, r = (load n state).1.value)
  | [], _, h => .inl h
  | name :: names, p, h => by
    -- either the other names brought it in, or it was there once the first name was served
    rcases serveAll_origin names (p := (serve previous load name p).2) h with hf | h'
    · rw [serve_fresh] at hf
      by_cases hn : name = n
      · subst hn
        rw [if_pos rfl] at hf
        rcases serve_cases previous load name p with ⟨_, h', hs⟩ | ⟨_, _, h', hr, hs⟩ | ⟨_, h', hs⟩
        · rw [hs] at hf
          exact .inl (h'.trans hf)
        · rw [hs] at hf
          cases hf
          exact .inr (.inl ⟨h', hr⟩)
        · rw [hs] at hf
          exact .inr (.inr ⟨h', p.loader, (Option.some.inj hf).symm⟩)
      · rw [if_neg hn] at hf
        exact .inl hf
    · exact .inr h'

/-! ## The questions to the loader -/

/-- The loader with its questions written down, each with the answer it got, the first one
first. -/
def Loader.recorded (load : Loader σ τ) : Loader (σ × List (String × Resolution τ)) τ :=
  fun name state =>
    let (answer, next) := load name state.1
    (answer, next, state.2 ++ [(name, answer.value)])

/-- The progress without the questions that were written down. -/
def Progress.unrecorded (p : Progress (σ × List (String × Resolution τ)) τ) : Progress σ τ :=
  ⟨p.fresh, p.loader.1⟩

/-- A loader that writes down its questions serves a name alike. -/
theorem serve_recorded (previous : Entry τ) (load : Loader σ τ) (name : String)
    (p : Progress (σ × List (String × Resolution τ)) τ) :
    serve previous load name p.unrecorded =
      ((serve previous load.recorded name p).1,
       (serve previous load.recorded name p).2.unrecorded) := by
  rcases serve_cases previous load.recorded name p with
    ⟨r, hf, hs⟩ | ⟨r, hf, hp, hr, hs⟩ | ⟨hf, hm, hs⟩
  · rw [hs]
    simp [serve, Progress.unrecorded, hf]
  · rw [hs]
    simp [serve, Progress.unrecorded, hf, hp, hr]
  · rcases serve_cases previous load name p.unrecorded with
      ⟨_, hf', _⟩ | ⟨r, _, hp, hr, _⟩ | ⟨_, _, hs'⟩
    · rw [Progress.unrecorded, hf] at hf'
      cases hf'
    · rw [mustAsk_eq_false_iff.mpr ⟨r, hp, hr⟩] at hm
      cases hm
    · rw [hs, hs']
      rfl

/-- Writing the questions down changes nothing for a batch. -/
theorem serveAll_recorded (previous : Entry τ) (load : Loader σ τ) :
    ∀ (names : List String) (p : Progress (σ × List (String × Resolution τ)) τ),
      serveAll previous load names p.unrecorded =
        ((serveAll previous load.recorded names p).1,
         (serveAll previous load.recorded names p).2.unrecorded)
  | [], _ => rfl
  | name :: names, p => by
    have ih := serveAll_recorded previous load names (serve previous load.recorded name p).2
    rw [serveAll_cons, serveAll_cons, serve_recorded, ih]

/-- The first occurrences of the values that pass a test are the first occurrences that do. -/
theorem eraseDups_filter (test : String → Bool) :
    ∀ names : List String, (names.filter test).eraseDups = names.eraseDups.filter test
  | [] => rfl
  | name :: names => by
    have ih := eraseDups_filter test (names.filter fun n => !n == name)
    have hcomm : (names.filter test).filter (fun n => !n == name) =
        (names.filter fun n => !n == name).filter test := by
      rw [List.filter_filter, List.filter_filter]
      exact List.filter_congr fun n _ => Bool.and_comm _ _
    by_cases h : test name = true
    · rw [List.filter_cons_of_pos h, List.eraseDups_cons, List.eraseDups_cons,
        List.filter_cons_of_pos h, hcomm, ih]
    · have hself : (names.filter test).filter (fun n => !n == name) = names.filter test := by
        rw [List.filter_eq_self]
        intro n hn
        have hne : n ≠ name := fun he => h (he ▸ (List.mem_filter.mp hn).2)
        simp [hne]
      rw [List.filter_cons_of_neg h, List.eraseDups_cons, List.filter_cons_of_neg h, ← ih, ← hcomm,
        hself]
  termination_by names => names.length
  decreasing_by
    exact Nat.lt_succ_of_le (List.length_filter_le _ _)

/-- The loader is asked for the names that the previous entry cannot answer and that the batch
has not served yet, once each and in the order of their first occurrences. -/
theorem serveAll_asked (previous : Entry τ) (load : Loader σ τ) :
    ∀ (names : List String) (p : Progress (σ × List (String × Resolution τ)) τ),
      (serveAll previous load.recorded names p).2.loader.2.map Prod.fst =
        p.loader.2.map Prod.fst ++
          names.eraseDups.filter fun n => mustAsk previous n && !(p.fresh.get? n).isSome
  | [], p => by simp [serveAll]
  | name :: names, p => by
    have ih := serveAll_asked previous load names (serve previous load.recorded name p).2
    rw [serveAll_cons, ih, List.eraseDups_cons, eraseDups_filter]
    -- what is still to be asked behind the first name is the same, however it was served
    have htail : (names.eraseDups.filter fun n => mustAsk previous n &&
          !((serve previous load.recorded name p).2.fresh.get? n).isSome) =
        (names.eraseDups.filter fun n => !n == name).filter
          fun n => mustAsk previous n && !(p.fresh.get? n).isSome := by
      rw [List.filter_filter]
      refine List.filter_congr fun n _ => ?_
      rw [serve_fresh]
      by_cases h : name = n
      · simp [h]
      · have h' : ¬ n = name := fun he => h he.symm
        simp [h, h']
    rw [htail]
    rcases serve_cases previous load.recorded name p with
      ⟨_, hf, hs⟩ | ⟨r, hf, hp, hr, hs⟩ | ⟨hf, hm, hs⟩
    · rw [hs, List.filter_cons_of_neg (by simp [hf])]
    · rw [hs, List.filter_cons_of_neg (by simp [mustAsk_eq_false_iff.mpr ⟨r, hp, hr⟩])]
    · rw [hs, List.filter_cons_of_pos (by simp [hf, hm])]
      simp [Loader.recorded]

/-- What is written down of a question is what the entry says in the end. -/
theorem serveAll_loaded (previous : Entry τ) (load : Loader σ τ) :
    ∀ (names : List String) (p : Progress (σ × List (String × Resolution τ)) τ),
      (∀ a ∈ p.loader.2, p.fresh.get? a.1 = some a.2) →
        ∀ a ∈ (serveAll previous load.recorded names p).2.loader.2,
          (serveAll previous load.recorded names p).2.fresh.get? a.1 = some a.2
  | [], _, h => h
  | name :: names, p, h => by
    refine serveAll_loaded previous load names (serve previous load.recorded name p).2 ?_
    intro a ha
    rcases serve_cases previous load.recorded name p with ⟨_, _, hs⟩ | ⟨_, _, _, _, hs⟩ | ⟨_, _, hs⟩
    · rw [hs] at ha ⊢
      exact h a ha
    · exact serve_fresh_of_some (h a (by rw [hs] at ha; exact ha))
    -- a question of before, or the one that was just asked
    · have ha' : a ∈ p.loader.2 ∨ a = (name, (load name p.loader.1).1.value) := by
        rw [hs] at ha
        simpa [Loader.recorded] using ha
      rcases ha' with hold | hnew
      · exact serve_fresh_of_some (h a hold)
      · rw [hs, hnew]
        simp [Table.get?_insert, Loader.recorded]

/-! ## A whole batch -/

/-- The entry that a batch makes of the previous one. -/
def Entry.rebuilt (previous : Entry τ) (names : List String) (load : Loader σ τ) (state : σ) :
    Entry τ :=
  (serveAll previous load names ⟨Table.empty, state⟩).2.fresh

/-- The questions of a batch to its loader, each with its answer. -/
def Entry.questions (previous : Entry τ) (names : List String) (load : Loader σ τ) (state : σ) :
    List (String × Resolution τ) :=
  (serveAll previous load.recorded names ⟨Table.empty, (state, [])⟩).2.loader.2

section Batch

variable (previous : Entry τ) (names : List String) (load : Loader σ τ) (state : σ)

/-- Writing questions down does not change the entry that is built. -/
theorem rebuilt_recorded :
    previous.rebuilt names load.recorded (state, []) = previous.rebuilt names load state :=
  congrArg (fun served => served.2.fresh)
    (serveAll_recorded previous load names ⟨Table.empty, (state, [])⟩).symm

/-- The new entry knows just the names of the batch. -/
theorem rebuilt_isSome (n : String) :
    ((previous.rebuilt names load state).get? n).isSome = true ↔ n ∈ names := by
  rw [Entry.rebuilt, serveAll_fresh_isSome]
  simp

/-- A name that the previous entry can answer keeps its resolution. -/
theorem rebuilt_kept {previous : Entry τ} {names : List String} {n : String} {r : Resolution τ}
    (hprev : previous.get? n = some r) (hr : r.isReusable = true) (hn : n ∈ names) :
    (previous.rebuilt names load state).get? n = some r :=
  serveAll_kept hprev hr names hn (Table.get?_empty n)

/-- A resolution of the new entry was there before and is reusable, or comes from the loader. -/
theorem rebuilt_origin {n : String} {r : Resolution τ}
    (h : (previous.rebuilt names load state).get? n = some r) :
    (previous.get? n = some r ∧ r.isReusable = true) ∨
      (mustAsk previous n = true ∧ ∃ state', r = (load n state').1.value) := by
  rcases serveAll_origin names h with hnone | hrest
  · cases hnone
  · exact hrest

/-- The loader is asked for the names the previous entry cannot answer, once each, in the order of
their first occurrences. -/
theorem questions_names :
    (previous.questions names load state).map Prod.fst =
      names.eraseDups.filter (mustAsk previous) := by
  rw [Entry.questions, serveAll_asked]
  simp

/-- What the loader answered is what the new entry says. -/
theorem rebuilt_questions {a : String × Resolution τ}
    (ha : a ∈ previous.questions names load state) :
    (previous.rebuilt names load state).get? a.1 = some a.2 := by
  rw [← rebuilt_recorded]
  exact serveAll_loaded previous load names ⟨Table.empty, (state, [])⟩ (by simp) a ha

end Batch

/-- With a loader that answers by a function, and a previous entry whose reusable resolutions are
that function's, the new entry holds the function's answers. -/
theorem rebuilt_of_answers {previous : Entry τ} {names : List String} {load : Loader σ τ}
    {answer : String → Resolution τ} (hload : ∀ n state, (load n state).1.value = answer n)
    (hprev : ∀ n r, previous.get? n = some r → r.isReusable = true → r = answer n) (state : σ)
    {n : String} (hn : n ∈ names) :
    (previous.rebuilt names load state).get? n = some (answer n) := by
  have hsome := (rebuilt_isSome previous names load state n).mpr hn
  obtain ⟨r, hr⟩ := Option.isSome_iff_exists.mp hsome
  rw [hr]
  rcases rebuilt_origin previous names load state hr with ⟨hold, hreuse⟩ | ⟨-, state', hnew⟩
  · rw [hprev n r hold hreuse]
  · rw [hnew, hload]

namespace Cache

variable (c : Cache τ) (key : CanonicalKey) (names : List String) (load : Loader σ τ) (state : σ)

/-- The entry that a file has, empty when there is none. -/
def entry : Entry τ := (c.files.get? key).getD Table.empty

/-- The names of a batch, as they are served. -/
def servedNames : List (Served τ) :=
  (serveAll (c.entry key) load names ⟨Table.empty, state⟩).1

/-- Removing a file drops its entry, and no other. -/
theorem remove_files (k : CanonicalKey) :
    (c.remove key).2.files.get? k = if key = k then none else c.files.get? k := by
  unfold remove contains Table.contains
  split
  next => exact Table.get?_erase _ _ _
  next habsent =>
    split
    next hk => simpa [hk] using habsent
    next => rfl

theorem remove_label : (c.remove key).2.label = c.label := by
  unfold remove
  split <;> rfl

theorem clear_files (k : CanonicalKey) : c.clear.2.files.get? k = none := rfl

variable [Target τ]

/-- A batch writes its file's entry, and no other. -/
theorem resolveNames_files (k : CanonicalKey) :
    (c.resolveNames key names load state).2.1.files.get? k =
      if key = k then some ((c.entry key).rebuilt names load state) else c.files.get? k :=
  Table.get?_insert ..

/-- A batch answers with the targets of its file's new entry. -/
theorem resolveNames_targets :
    (c.resolveNames key names load state).1.value.targets.map some =
      names.map fun n =>
        (((c.entry key).rebuilt names load state).get? n).map Resolution.target := by
  have hres := serveAll_resolutions (c.entry key) load names ⟨Table.empty, state⟩
  have htargets := congrArg (List.map (Option.map Resolution.target)) hres
  simpa [resolveNames, entry, Entry.rebuilt, Function.comp_def] using htargets

/-- A slot of a batch's answer holds what the file's new entry has for the slot's name. -/
theorem resolveNames_slot {i : Nat} {n : String} (hn : names[i]? = some n) :
    (c.resolveNames key names load state).1.value.targets[i]? =
      (((c.entry key).rebuilt names load state).get? n).map Resolution.target := by
  have hslot := congrArg (·[i]?) (c.resolveNames_targets key names load state)
  simp only [List.getElem?_map, hn, Option.map_some] at hslot
  obtain ⟨target, htarget, hsome⟩ := Option.map_eq_some_iff.mp hslot
  rw [htarget, hsome]

/-- With a loader that answers by a function, and an entry whose reusable resolutions are that
function's, a batch answers with the function's targets. -/
theorem resolveNames_targets_of_answers {c : Cache τ} {key : CanonicalKey} {load : Loader σ τ}
    {answer : String → Resolution τ} (hload : ∀ n state, (load n state).1.value = answer n)
    (hentry : ∀ n r, (c.entry key).get? n = some r → r.isReusable = true → r = answer n)
    (names : List String) (state : σ) :
    (c.resolveNames key names load state).1.value.targets =
      names.map fun n => (answer n).target := by
  have htargets := c.resolveNames_targets key names load state
  have hanswers : (names.map fun n =>
      (((c.entry key).rebuilt names load state).get? n).map Resolution.target) =
        (names.map fun n => (answer n).target).map some := by
    rw [List.map_map]
    refine List.map_congr_left fun n hn => ?_
    rw [rebuilt_of_answers hload hentry state hn]
    rfl
  rw [hanswers] at htargets
  exact (List.map_inj_right fun _ _ h => Option.some.inj h).mp htargets

end Cache

end NameResolution
