import NameResolution.Proofs.Cache.Serving

/-!
# What a batch answers

A batch with repeated names and a loader that may answer anything, told without the
half-built entry that the loop carries along. Of each name only the *first* occurrence counts:
it is served from the previous entry where that can answer, and the loader is asked
otherwise, in the order of the first occurrences (`Loader.askAll`). That fixes the one
resolution a name gets in the batch (`Entry.chosen`), and everything else is read off it:
the slots of the answer, the file's new entry, the state the loader is left in
(`batch_answers`).

The inductions run over the names that the half-built entry does not know yet
(`Progress.unserved`); `unserved_cons` says what serving one name does to them.
-/

namespace NameResolution

variable {σ τ : Type}

/-- Asks a loader for names one after the other. Gives each answer under its name, and the state
the loader is left in. -/
def Loader.askAll (load : Loader σ τ) :
    List String → σ → List (String × Observed (Resolution τ)) × σ
  | [], state => ([], state)
  | name :: names, state =>
    let (answer, next) := load name state
    let (answers, last) := askAll load names next
    ((name, answer) :: answers, last)

/-- The names of a batch that are left to the loader, in the order of their first occurrences. -/
def Entry.toAsk (previous : Entry τ) (names : List String) : List String :=
  names.eraseDups.filter (mustAsk previous)

/-- The one resolution that a name gets in a batch: the previous entry's if that is reusable, and
the loader's answer at the name's first occurrence otherwise. -/
def Entry.chosen (previous : Entry τ) (names : List String) (load : Loader σ τ) (state : σ)
    (name : String) : Option (Resolution τ) :=
  if mustAsk previous name then
    (Table.look name (load.askAll (previous.toAsk names) state).1).map Observed.value
  else previous.get? name

theorem askAll_cons (load : Loader σ τ) (name : String) (names : List String) (state : σ) :
    load.askAll (name :: names) state =
      ((name, (load name state).1) :: (load.askAll names (load name state).2).1,
        (load.askAll names (load name state).2).2) := rfl

/-- A loader that is asked for names is asked for these names. -/
theorem map_fst_askAll (load : Loader σ τ) (names : List String) (state : σ) :
    (load.askAll names state).1.map Prod.fst = names := by
  induction names generalizing state with
  | nil => rfl
  | cons name names ih => exact congrArg (name :: ·) (ih _)

/-- No name is left twice. -/
theorem nodup_eraseDups : ∀ names : List String, names.eraseDups.Nodup
  | [] => List.nodup_nil
  | name :: names => by
    have ih := nodup_eraseDups (names.filter fun n => !n == name)
    rw [List.eraseDups_cons, List.nodup_cons]
    exact ⟨by simp, ih⟩
  termination_by names => names.length
  decreasing_by
    exact Nat.lt_succ_of_le (List.length_filter_le _ _)

/-! ## First occurrences -/

/-- The names that the half-built entry does not know, in the order of their first occurrences. -/
def Progress.unserved (p : Progress σ τ) (names : List String) : List String :=
  names.eraseDups.filter fun n => !(p.fresh.get? n).isSome

/-- At the start of a batch all its names are to be served, each once. -/
theorem unserved_empty (state : σ) (names : List String) :
    (⟨Table.empty, state⟩ : Progress σ τ).unserved names = names.eraseDups := by
  simp [Progress.unserved]

/-- Once a name is served, it is unserved no more, and the others are as they were. -/
theorem unserved_cons (previous : Entry τ) (load : Loader σ τ) (name : String)
    (names : List String) (p : Progress σ τ) :
    p.unserved (name :: names) =
      (if (p.fresh.get? name).isSome then [] else [name]) ++
        (serve previous load name p).2.unserved names := by
  have htail : (serve previous load name p).2.unserved names =
      (names.eraseDups.filter fun n => !n == name).filter fun n => !(p.fresh.get? n).isSome := by
    unfold Progress.unserved
    rw [List.filter_filter]
    refine List.filter_congr fun n _ => ?_
    rw [serve_fresh]
    by_cases h : name = n
    · simp [h]
    · have h' : ¬ n = name := fun he => h he.symm
      simp [h, h']
  rw [htail, Progress.unserved, List.eraseDups_cons, eraseDups_filter]
  cases hp : (p.fresh.get? name).isSome with
  | true => rw [List.filter_cons_of_neg (by simp [hp])]; rfl
  | false => rw [List.filter_cons_of_pos (by simp [hp])]; rfl

/-- The half-built entry gains the names as they are served. -/
theorem serveAll_keys (previous : Entry τ) (load : Loader σ τ) :
    ∀ (names : List String) (p : Progress σ τ),
      (serveAll previous load names p).2.fresh.keys = p.fresh.keys ++ p.unserved names
  | [], p => by simp [serveAll, Progress.unserved]
  | name :: names, p => by
    have ih := serveAll_keys previous load names (serve previous load name p).2
    have hkeys : (serve previous load name p).2.fresh.keys =
        p.fresh.keys ++ if (p.fresh.get? name).isSome then [] else [name] := by
      rcases serve_cases previous load name p with ⟨r, hf, hs⟩ | ⟨r, hf, _, _, hs⟩ | ⟨hf, _, hs⟩
      · rw [hs, hf]
        simp
      · rw [hs, Table.keys_insert, hf]
        rfl
      · rw [hs, Table.keys_insert, hf]
        rfl
    rw [serveAll_cons, ih, hkeys, unserved_cons previous load, List.append_assoc]

/-- What holds of every name that is served holds of all that were served. -/
theorem serveAll_forall {P : Served τ → Prop} {previous : Entry τ} {load : Loader σ τ}
    (h : ∀ name p, P (serve previous load name p).1) :
    ∀ (names : List String) (p : Progress σ τ), ∀ s ∈ (serveAll previous load names p).1, P s
  | [], _, s, hs => by cases hs
  | name :: names, p, s, hs => by
    rw [serveAll_cons] at hs
    rcases List.mem_cons.mp hs with rfl | hs
    · exact h name p
    · exact serveAll_forall h names _ s hs

theorem serve_name (previous : Entry τ) (load : Loader σ τ) (name : String) (p : Progress σ τ) :
    (serve previous load name p).1.name = name := by
  rcases serve_cases previous load name p with ⟨_, _, hs⟩ | ⟨_, _, _, _, hs⟩ | ⟨_, _, hs⟩ <;>
    rw [hs]

/-- What a name was served with stands in the entry at the end. -/
theorem serveAll_result (previous : Entry τ) (load : Loader σ τ) :
    ∀ (names : List String) (p : Progress σ τ), ∀ s ∈ (serveAll previous load names p).1,
      (serveAll previous load names p).2.fresh.get? s.name = some s.resolution
  | [], _, s, hs => by cases hs
  | name :: names, p, s, hs => by
    rw [serveAll_cons] at hs ⊢
    rcases List.mem_cons.mp hs with rfl | hs
    · refine serveAll_fresh_of_some names ?_
      rw [serve_name, serve_fresh, if_pos rfl]
    · exact serveAll_result previous load names _ s hs

/-! ## The loader's part -/

/-- Was the loader asked for the name? -/
def Served.isAsked (s : Served τ) : Bool :=
  match s.origin with
  | .loader | .retry => true
  | .batch | .entry => false

/-- The loader's answer to a name that it was asked for, under the name. -/
def Served.answer (s : Served τ) : String × Observed (Resolution τ) :=
  (s.name, ⟨s.resolution, s.seen⟩)

/-- What the loader is asked, what it answers, and where that leads it: it is asked for those of
the unserved names that the previous entry cannot answer, one after the other. -/
theorem serveAll_askAll (previous : Entry τ) (load : Loader σ τ) :
    ∀ (names : List String) (p : Progress σ τ),
      load.askAll ((p.unserved names).filter (mustAsk previous)) p.loader =
        (((serveAll previous load names p).1.filter Served.isAsked).map Served.answer,
          (serveAll previous load names p).2.loader)
  | [], p => by simp [serveAll, Progress.unserved, Loader.askAll]
  | name :: names, p => by
    have ih := serveAll_askAll previous load names (serve previous load name p).2
    rw [unserved_cons previous load, List.filter_append, serveAll_cons]
    rcases serve_cases previous load name p with ⟨r, hf, hs⟩ | ⟨r, hf, hp, hr, hs⟩ | ⟨hf, hm, hs⟩
    · rw [hs] at ih ⊢
      rw [hf, List.filter_cons_of_neg (by simp [Served.isAsked])]
      exact ih
    · have hclosed : mustAsk previous name = false := mustAsk_eq_false_iff.mpr ⟨r, hp, hr⟩
      rw [hs] at ih ⊢
      rw [hf, List.filter_cons_of_neg (by simp [Served.isAsked])]
      simpa [hclosed] using ih
    · have hasked : Served.isAsked (serve previous load name p).1 = true := by
        rw [hs]
        cases (previous.get? name).isSome <;> rfl
      rw [List.filter_cons_of_pos hasked]
      rw [hs] at ih ⊢
      have hopen : (if (p.fresh.get? name).isSome then [] else [name]).filter (mustAsk previous) =
          [name] := by simp [hf, hm]
      rw [hopen, List.singleton_append, askAll_cons, ih]
      rfl

namespace Entry

variable (previous : Entry τ) (names : List String) (load : Loader σ τ) (state : σ)

/-- The new entry has the names of the batch, in the order of their first occurrences. -/
theorem rebuilt_keys : (previous.rebuilt names load state).keys = names.eraseDups := by
  rw [rebuilt, serveAll_keys, unserved_empty]
  rfl

/-- A batch asks for those of its names that the previous entry cannot answer. -/
theorem mem_toAsk {n : String} : n ∈ previous.toAsk names ↔ n ∈ names ∧ mustAsk previous n := by
  rw [toAsk, List.mem_filter, List.mem_eraseDups]

/-- The loader's answers go into the entry that a batch leaves. -/
theorem rebuilt_of_asked {n : String} {answer : Observed (Resolution τ)}
    (h : (n, answer) ∈ (load.askAll (previous.toAsk names) state).1) :
    (previous.rebuilt names load state).get? n = some answer.value := by
  have hdialogue := serveAll_askAll previous load names ⟨Table.empty, state⟩
  rw [unserved_empty] at hdialogue
  rw [toAsk, hdialogue, List.mem_map] at h
  obtain ⟨s, hs, heq⟩ := h
  have hresult := serveAll_result previous load names ⟨Table.empty, state⟩ s
    (List.mem_filter.mp hs).1
  cases heq
  exact hresult

/-- Every name that is left to the loader gets an answer from it. -/
theorem exists_answer {n : String} (hn : n ∈ previous.toAsk names) :
    ∃ answer, Table.look n (load.askAll (previous.toAsk names) state).1 = some answer := by
  rw [← Option.isSome_iff_exists, Table.look_isSome_iff, map_fst_askAll]
  exact hn

/-- The entry that a batch leaves holds the chosen resolutions of its names. -/
theorem rebuilt_get? (n : String) :
    (previous.rebuilt names load state).get? n =
      if n ∈ names then previous.chosen names load state n else none := by
  split
  next hn =>
    unfold chosen
    split
    next hask =>
      obtain ⟨answer, hanswer⟩ :=
        previous.exists_answer names load state ((previous.mem_toAsk names).mpr ⟨hn, hask⟩)
      rw [hanswer]
      exact previous.rebuilt_of_asked names load state (Table.mem_of_look hanswer)
    next hclosed =>
      obtain ⟨r, hr, hreuse⟩ := mustAsk_eq_false_iff.mp (by simpa using hclosed)
      rw [hr]
      exact rebuilt_kept load state hr hreuse hn
  next hn =>
    have hunknown := mt (rebuilt_isSome previous names load state n).mp hn
    simpa using hunknown

/-- What a name is served with is not taken back by the names behind it. -/
theorem rebuilt_append {before : List String} {n : String} {r : Resolution τ}
    (h : (previous.rebuilt before load state).get? n = some r) (behind : List String) :
    (previous.rebuilt (before ++ behind) load state).get? n = some r := by
  have happend : ∀ (before : List String) (p : Progress σ τ),
      (serveAll previous load (before ++ behind) p).2 =
        (serveAll previous load behind (serveAll previous load before p).2).2 := by
    intro before
    induction before with
    | nil => intro p; rfl
    | cons m before ih => exact fun p => ih _
  rw [rebuilt, happend]
  exact serveAll_fresh_of_some behind h

end Entry

/-! ## A whole batch -/

/-- What a batch for a file answers, and what it leaves behind. -/
structure Cache.Answers (c : Cache τ) (key : CanonicalKey) (names : List String)
    (load : Loader σ τ) (state : σ) (batch : Batch τ) (after : Cache τ × σ) : Prop where
  /-- There is one slot for every name. -/
  slots : batch.targets.length = names.length
  /-- A slot holds the target of the resolution that was chosen for its name. -/
  slot : ∀ (i : Nat) n, names[i]? = some n →
    ∃ r, (c.entry key).chosen names load state n = some r ∧ batch.targets[i]? = some r.target
  /-- Equal names have equal slots. -/
  alike : ∀ i j : Nat, names[i]? = names[j]? → batch.targets[i]? = batch.targets[j]?
  /-- The file's entry now has the distinct names, each with what was chosen for it. -/
  entry : ∃ e, after.1.files.get? key = some e ∧ e.keys = names.eraseDups ∧
    ∀ n, e.get? n = if n ∈ names then (c.entry key).chosen names load state n else none
  /-- The entries of the other files are what they were. -/
  others : ∀ k, k ≠ key → after.1.files.get? k = c.files.get? k
  /-- The loader was asked for the names that the previous entry could not answer, once each. -/
  loader : after.2 = (load.askAll ((c.entry key).toAsk names) state).2
  /-- Right behind every name, the half-built entry has the name, with the slot's target. -/
  served : ∀ before n behind, names = before ++ n :: behind →
    ∃ r, ((c.entry key).rebuilt (before ++ [n]) load state).get? n = some r ∧
      batch.targets[before.length]? = some r.target

/-- **A name gets one answer in a batch.** For every cache, file and list of names, and whatever
the loader does: each slot is the target of the one resolution chosen for its name, which is the
previous entry's if that is reusable and the loader's answer at the name's first occurrence
otherwise; just these resolutions become the file's entry, and no other entry is touched. -/
theorem batch_answers [Target τ] (c : Cache τ) (key : CanonicalKey) (names : List String)
    (load : Loader σ τ) (state : σ) :
    c.Answers key names load state (c.resolveNames key names load state).1.value
      (c.resolveNames key names load state).2 := by
  let previous := c.entry key
  let targets := (c.resolveNames key names load state).1.value.targets
  have hslot : ∀ (i : Nat) n, names[i]? = some n →
      targets[i]? = ((previous.rebuilt names load state).get? n).map Resolution.target :=
    fun i n hn => c.resolveNames_slot key names load state hn
  have hlength : targets.length = names.length := by
    simpa using congrArg List.length (c.resolveNames_targets key names load state)
  have hknown : ∀ n ∈ names, ∃ r, (previous.rebuilt names load state).get? n = some r :=
    fun n hn => Option.isSome_iff_exists.mp ((rebuilt_isSome previous names load state n).mpr hn)
  constructor
  case slots => exact hlength
  case slot =>
    intro i n hn
    have hmem : n ∈ names := List.mem_of_getElem? hn
    obtain ⟨r, hr⟩ := hknown n hmem
    refine ⟨r, ?_, (hslot i n hn).trans (by rw [hr]; rfl)⟩
    rw [← hr, Entry.rebuilt_get?, if_pos hmem]
  case alike =>
    intro i j hij
    cases hn : names[i]? with
    | some n => exact (hslot i n hn).trans (hslot j n (hij ▸ hn)).symm
    | none =>
      -- both places are behind the last name
      have hi : names.length ≤ i := List.getElem?_eq_none_iff.mp hn
      have hj : names.length ≤ j := List.getElem?_eq_none_iff.mp (hij ▸ hn)
      rw [← hlength] at hi hj
      exact (List.getElem?_eq_none hi).trans (List.getElem?_eq_none hj).symm
  case entry =>
    refine ⟨previous.rebuilt names load state, ?_, ?_, ?_⟩
    · rw [c.resolveNames_files, if_pos rfl]
    · exact Entry.rebuilt_keys previous names load state
    · exact Entry.rebuilt_get? previous names load state
  case others =>
    intro k hk
    rw [c.resolveNames_files, if_neg fun h => hk h.symm]
  case loader =>
    have hdialogue := serveAll_askAll previous load names ⟨Table.empty, state⟩
    rw [unserved_empty] at hdialogue
    exact (congrArg Prod.snd hdialogue).symm
  case served =>
    intro before n behind hnames
    have hsome := (rebuilt_isSome previous (before ++ [n]) load state n).mpr (by simp)
    obtain ⟨r, hr⟩ := Option.isSome_iff_exists.mp hsome
    refine ⟨r, hr, ?_⟩
    have hlast := Entry.rebuilt_append previous load state hr behind
    rw [List.append_assoc, List.singleton_append, ← hnames] at hlast
    refine (hslot before.length n ?_).trans (by rw [hlast]; rfl)
    rw [hnames, List.getElem?_append_right (Nat.le_refl _)]
    simp

end NameResolution
