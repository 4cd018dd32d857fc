import Mathlib.Data.List.Basic
import NameResolution.Proofs.Cache.Answers
import NameResolution.Proofs.Cache.History

/-!
# Counters, log and loader

Three accounts of the same thing: what a cache counts, what it writes into the log, and what
its loaders are asked. Over every run they agree (`counters_balance`): every name of every
batch is counted once, as reused, repeated or loaded, and a load is counted for every
question to a loader.

The log of a batch is told by the distinct names of the batch (`Cache.resolveNames_seen`):
first what the batch is, then for every name, at its first occurrence, what the cache has to
report of it (`Entry.reports`) and what the loader shows if it is asked. So the events can be
counted too (`Cache.resolveNames_stats`).
-/

namespace NameResolution

variable {σ τ : Type}

/-! ## Counting -/

/-- Every counter grows by the number of the origins that it counts. -/
theorem Stats.foldl_count (origins : List Origin) (s : Stats) :
    origins.foldl Stats.count s =
      { reused := s.reused + origins.count .entry
        duplicates := s.duplicates + origins.count .batch
        loaderInvocations :=
          s.loaderInvocations + (origins.count .loader + origins.count .retry)
        retriedMisses := s.retriedMisses + origins.count .retry } := by
  induction origins generalizing s with
  | nil => rfl
  | cons o origins ih =>
    rw [List.foldl_cons, ih]
    cases o <;> simp [Stats.count] <;> omega

/-- Every name is counted once. -/
theorem Origin.count_all (origins : List Origin) :
    origins.count .entry + origins.count .batch +
      (origins.count .loader + origins.count .retry) = origins.length := by
  induction origins with
  | nil => rfl
  | cons o origins ih => cases o <;> simp <;> omega

/-- As many names went to the loader as were asked for. -/
theorem count_asked (served : List (Served τ)) :
    (served.map (·.origin)).count .loader + (served.map (·.origin)).count .retry =
      (served.filter Served.isAsked).length := by
  induction served with
  | nil => rfl
  | cons s served ih =>
    cases h : s.origin <;> simp [Served.isAsked, h] at ih ⊢ <;> omega

/-- A reuse is reported as a trace, a retry at the level of debugging, and nothing else is
reported. -/
theorem countP_events (served : List (Served τ)) :
    (served.flatMap Served.events).countP (·.record.level = .trace) =
        (served.map (·.origin)).count .entry ∧
      (served.flatMap Served.events).countP (·.record.level = .debug) =
        (served.map (·.origin)).count .retry := by
  induction served with
  | nil => exact ⟨rfl, rfl⟩
  | cons s served ih =>
    obtain ⟨htrace, hdebug⟩ := ih
    rw [List.flatMap_cons, List.countP_append, List.countP_append, htrace, hdebug]
    cases h : s.origin <;> simp [Served.events, LogEvent.record, h] <;> omega

/-! ## What is told of a name -/

/-- What the cache itself reports of a name, as it finds it in an entry. -/
def Entry.reports (previous : Entry τ) (n : String) : List LogEvent :=
  match previous.get? n with
  | none => []
  | some r => if r.isReusable then [.reusing n] else [.retrying n]

/-- What becomes visible while the loader of a batch is asked for a name, if it is. -/
def Entry.shown (previous : Entry τ) (names : List String) (load : Loader σ τ) (state : σ)
    (n : String) : List Observation :=
  ((Table.look n (load.askAll (previous.toAsk names) state).1).map Observed.seen).getD []

/-- Was the name served for the first time in its batch? -/
def Served.isFirst (s : Served τ) : Bool := decide (s.origin ≠ .batch)

/-- What becomes visible when a name is served, according to where its resolution comes from. -/
structure Served.Told (previous : Entry τ) (s : Served τ) : Prop where
  repeated : s.isFirst = false → s.events = [] ∧ s.seen = []
  first : s.isFirst = true → s.events = previous.reports s.name
  reused : s.isFirst = true → s.isAsked = false → mustAsk previous s.name = false ∧ s.seen = []

/-- What is served for a name tells what the previous entry says of it. -/
theorem serve_told (previous : Entry τ) (load : Loader σ τ) (name : String) (p : Progress σ τ) :
    (serve previous load name p).1.Told previous := by
  rcases serve_cases previous load name p with ⟨_, _, hs⟩ | ⟨r, _, hp, hr, hs⟩ | ⟨_, hm, hs⟩
  · rw [hs]
    constructor
    case repeated => exact fun _ => ⟨rfl, rfl⟩
    all_goals simp [Served.isFirst]
  · rw [hs]
    constructor
    case repeated => simp [Served.isFirst]
    case first => simp [Served.events, Entry.reports, hp, hr]
    case reused => exact fun _ _ => ⟨mustAsk_eq_false_iff.mpr ⟨r, hp, hr⟩, rfl⟩
  · rw [hs]
    -- an entry that has the name has a provisional miss, or the loader would not be asked
    have hreport : ∀ r, previous.get? name = some r → r.isReusable = false := fun r hp => by
      simpa [mustAsk, hp, Resolution.isReusable?] using hm
    cases hp : previous.get? name with
    | none =>
      constructor
      case first => simp [Served.events, Entry.reports, hp]
      all_goals simp [Served.isFirst, Served.isAsked]
    | some r =>
      constructor
      case first => simp [Served.events, Entry.reports, hp, hreport r hp]
      all_goals simp [Served.isFirst, Served.isAsked]

/-- The names that are served for the first time are those that the half-built entry does not
know. -/
theorem serveAll_firsts (previous : Entry τ) (load : Loader σ τ) :
    ∀ (names : List String) (p : Progress σ τ),
      ((serveAll previous load names p).1.filter Served.isFirst).map (·.name) = p.unserved names
  | [], p => by simp [serveAll, Progress.unserved]
  | name :: names, p => by
    have ih := serveAll_firsts previous load names (serve previous load name p).2
    have hfirst : (serve previous load name p).1.isFirst = !(p.fresh.get? name).isSome := by
      rcases serve_cases previous load name p with ⟨_, hf, hs⟩ | ⟨_, hf, _, _, hs⟩ | ⟨hf, _, hs⟩
      · rw [hs, hf]
        rfl
      · rw [hs, hf]
        rfl
      · rw [hs, hf]
        cases (previous.get? name).isSome <;> rfl
    rw [serveAll_cons, unserved_cons previous load, ← ih, List.filter_cons, hfirst]
    cases (p.fresh.get? name).isSome <;> simp [serve_name]

theorem serveAll_length (previous : Entry τ) (load : Loader σ τ) :
    ∀ (names : List String) (p : Progress σ τ),
      (serveAll previous load names p).1.length = names.length
  | [], _ => rfl
  | _ :: names, _ => congrArg (· + 1) (serveAll_length previous load names _)

/-- What shows only of some members of a list shows of the list. -/
theorem flatMap_filter_of_nil {α β : Type} {f : α → List β} {test : α → Bool} {l : List α}
    (h : ∀ a ∈ l, test a = false → f a = []) : (l.filter test).flatMap f = l.flatMap f := by
  induction l with
  | nil => rfl
  | cons a l ih =>
    rw [List.forall_mem_cons] at h
    rw [List.flatMap_cons, ← ih h.2]
    cases ha : test a with
    | true => rw [List.filter_cons_of_pos ha, List.flatMap_cons]
    | false => rw [List.filter_cons_of_neg (by simp [ha]), h.1 ha, List.nil_append]

namespace Cache

variable (c : Cache τ) (key : CanonicalKey) (names : List String) (load : Loader σ τ) (state : σ)

/-- What is told of the served names is told of the distinct ones, once each. -/
theorem flatMap_servedNames {β : Type} {f : Served τ → List β} {g : String → List β}
    (hrepeated : ∀ s ∈ c.servedNames key names load state, s.isFirst = false → f s = [])
    (hfirst : ∀ s ∈ c.servedNames key names load state, s.isFirst = true → f s = g s.name) :
    (c.servedNames key names load state).flatMap f = names.eraseDups.flatMap g := by
  have hnames := serveAll_firsts (c.entry key) load names ⟨Table.empty, state⟩
  rw [unserved_empty] at hnames
  rw [← flatMap_filter_of_nil hrepeated, ← hnames, List.flatMap_map]
  refine List.flatMap_congr fun s hs => ?_
  exact hfirst s (List.mem_filter.mp hs).1 (List.mem_filter.mp hs).2

/-- Every name of a batch tells what the file's entry says of it. -/
theorem told_of_mem {s : Served τ} (hs : s ∈ c.servedNames key names load state) :
    s.Told (c.entry key) :=
  serveAll_forall (serve_told (c.entry key) load) names ⟨Table.empty, state⟩ s hs

/-- What is seen of a served name, besides the cache's own reports, is what its loader shows. -/
theorem seen_of_mem {s : Served τ} (hs : s ∈ c.servedNames key names load state)
    (hfirst : s.isFirst = true) : s.seen = (c.entry key).shown names load state s.name := by
  have hdialogue := serveAll_askAll (c.entry key) load names ⟨Table.empty, state⟩
  rw [unserved_empty] at hdialogue
  have hkeys := map_fst_askAll load ((c.entry key).toAsk names) state
  unfold Entry.shown
  cases hasked : s.isAsked with
  | true =>
    have hmem : (s.name, (⟨s.resolution, s.seen⟩ : Observed (Resolution τ))) ∈
        (load.askAll ((c.entry key).toAsk names) state).1 := by
      rw [Entry.toAsk, hdialogue]
      exact List.mem_map_of_mem (List.mem_filter.mpr ⟨hs, hasked⟩)
    have hnodup : ((c.entry key).toAsk names).Nodup := (nodup_eraseDups names).filter _
    rw [Table.look_of_mem (by rw [hkeys]; exact hnodup) hmem]
    rfl
  | false =>
    obtain ⟨hclosed, hseen⟩ := (c.told_of_mem key names load state hs).reused hfirst hasked
    have hnone : Table.look s.name (load.askAll ((c.entry key).toAsk names) state).1 = none := by
      rw [Table.look_eq_none_iff, hkeys, Entry.mem_toAsk, hclosed]
      simp
    rw [hnone, hseen]
    rfl

/-- **The log of a batch.** First comes what the batch is, then for every distinct name, in the
order of the first occurrences, what the cache reports of it and what the loader shows for it. -/
theorem resolveNames_seen [Target τ] :
    (c.resolveNames key names load state).1.seen =
      .logged (.resolvingNames c.label key names.length) ::
        names.eraseDups.flatMap fun n =>
          ((c.entry key).reports n).map .logged ++ (c.entry key).shown names load state n := by
  refine congrArg (_ :: ·) (c.flatMap_servedNames key names load state ?_ ?_)
  · intro s hs hrepeated
    obtain ⟨hevents, hseen⟩ := (c.told_of_mem key names load state hs).repeated hrepeated
    rw [Served.observations, hevents, hseen]
    rfl
  · intro s hs hfirst
    rw [Served.observations, (c.told_of_mem key names load state hs).first hfirst,
      c.seen_of_mem key names load state hs hfirst]

/-- The events that the cache itself reports in a batch, behind the first. -/
def reported : List LogEvent := names.eraseDups.flatMap (c.entry key).reports

/-- What a batch adds to the counters. -/
structure CountsBatch (before after : Stats) : Prop where
  /-- Every name is counted once. -/
  served : after.reused + after.duplicates + after.loaderInvocations =
    before.reused + before.duplicates + before.loaderInvocations + names.length
  /-- A load is counted for each name that is left to the loader. -/
  asked : after.loaderInvocations =
    before.loaderInvocations + ((c.entry key).toAsk names).length
  /-- A reuse is counted for each trace in the log. -/
  reused : after.reused =
    before.reused + (c.reported key names).countP (·.record.level = .trace)
  /-- A retry is counted for each debugging event in the log. -/
  retried : after.retriedMisses =
    before.retriedMisses + (c.reported key names).countP (·.record.level = .debug)
  /-- Retries are loads. -/
  retriedLoads : after.retriedMisses + before.loaderInvocations ≤
    before.retriedMisses + after.loaderInvocations

/-- A batch counts its names, and how each was served. -/
theorem resolveNames_stats [Target τ] :
    c.CountsBatch key names c.stats (c.resolveNames key names load state).2.1.stats := by
  let served := c.servedNames key names load state
  let origins := served.map (·.origin)
  have hstats : (c.resolveNames key names load state).2.1.stats =
      origins.foldl Stats.count c.stats := rfl
  have hlength : origins.length = names.length := by
    rw [List.length_map]
    exact serveAll_length (c.entry key) load names ⟨Table.empty, state⟩
  have hall := Origin.count_all origins
  have hasked : origins.count .loader + origins.count .retry =
      ((c.entry key).toAsk names).length := by
    have hdialogue := serveAll_askAll (c.entry key) load names ⟨Table.empty, state⟩
    rw [unserved_empty] at hdialogue
    rw [count_asked, ← map_fst_askAll load ((c.entry key).toAsk names) state, Entry.toAsk,
      hdialogue, List.length_map, List.length_map]
    rfl
  have hreported : served.flatMap Served.events = c.reported key names := by
    refine c.flatMap_servedNames key names load state ?_ ?_
    · exact fun s hs hrepeated => ((c.told_of_mem key names load state hs).repeated hrepeated).1
    · exact fun s hs hfirst => (c.told_of_mem key names load state hs).first hfirst
  obtain ⟨htrace, hdebug⟩ := countP_events served
  rw [hreported] at htrace hdebug
  rw [hstats, Stats.foldl_count]
  constructor
  case served => dsimp only; omega
  case asked => dsimp only; omega
  case reused => rw [htrace]
  case retried => rw [hdebug]
  case retriedLoads => dsimp only; omega

theorem remove_stats : (c.remove key).2.stats = c.stats := by
  unfold remove
  split <;> rfl

/-- A removal is in the log exactly when it takes something out. -/
theorem remove_seen :
    (c.remove key).1.seen =
      if (c.remove key).1.value then [.logged (.dropped c.label key)] else [] := by
  unfold remove
  split <;> rfl

end Cache

/-! ## A whole run -/

/-- The names that were passed in with an event. -/
def Event.names : Event τ → List String
  | .batch p => p.names
  | .removed _ | .cleared => []

/-- The questions to a loader in an event, each with its answer. -/
def Event.asked : Event τ → List (String × Resolution τ)
  | .batch p => p.asked
  | .removed _ | .cleared => []

/-- Do the counters agree with what has happened? -/
structure Stats.Balances (past : List (Event τ)) (s : Stats) : Prop where
  served : s.reused + s.duplicates + s.loaderInvocations = (past.flatMap Event.names).length
  asked : s.loaderInvocations = (past.flatMap Event.asked).length
  retried : s.retriedMisses ≤ s.loaderInvocations

/-- An operation keeps the counters in balance with what was seen. -/
theorem Stats.Balances.run [Target τ] {past : List (Event τ)} {c : Cache τ}
    (h : c.stats.Balances past) (op : Operation τ) : (op.run c).2.stats.Balances (past ++ [(op.run c).1]) := by
  cases op with
  | resolve key names load state =>
    have hbatch := c.resolveNames_stats key names load state
    have hquestions : ((c.entry key).questions names load state).length =
        ((c.entry key).toAsk names).length := by
      rw [Entry.toAsk, ← questions_names (c.entry key) names load state, List.length_map]
    rw [Operation.run_resolve]
    obtain ⟨hserved, hasked, hretried⟩ := h
    constructor
    case served =>
      rw [List.flatMap_append, List.length_append, hbatch.served, hserved]
      simp [Event.names]
    case asked =>
      rw [List.flatMap_append, List.length_append, hbatch.asked, hasked, ← hquestions]
      simp [Event.asked]
    case retried =>
      have hloads := hbatch.retriedLoads
      dsimp only
      omega
  | remove key =>
    show (c.remove key).2.stats.Balances (past ++ [.removed key])
    rw [c.remove_stats]
    constructor <;> simp [Event.names, Event.asked, ← h.served, ← h.asked, h.retried]
  | clear =>
    show c.stats.Balances (past ++ [.cleared])
    constructor <;> simp [Event.names, Event.asked, ← h.served, ← h.asked, h.retried]

/-- A run keeps the counters in balance with what was seen. -/
theorem Stats.Balances.after [Target τ] (ops : List (Operation τ)) :
    ∀ {past : List (Event τ)} {c : Cache τ}, c.stats.Balances past →
      (c.after ops).stats.Balances (past ++ transcript c ops) := by
  induction ops with
  | nil =>
    intro past c h
    rw [transcript, List.append_nil]
    exact h
  | cons op ops ih =>
    intro past c h
    have hrest := ih (h.run op)
    rwa [List.append_assoc, List.singleton_append] at hrest

/-- What a cache counts and logs of its next operation, whichever it is. -/
structure Cache.Accounts [Target τ] (c : Cache τ) : Prop where
  /-- A batch opens a span with the number of its names; behind it come, for every distinct name in
  the order of the first occurrences, the cache's own report of it and what the loader shows. -/
  log : ∀ {σ : Type} (key : CanonicalKey) (names : List String) (load : Loader σ τ) (state : σ),
    (c.resolveNames key names load state).1.seen =
      .logged (.resolvingNames c.label key names.length) ::
        names.eraseDups.flatMap fun n =>
          ((c.entry key).reports n).map .logged ++ (c.entry key).shown names load state n
  span : ∀ (key : CanonicalKey) (names : List String),
    (LogEvent.resolvingNames c.label key names.length).record =
      ⟨.debug, true, "resolve_names", [("kind", .text c.label), ("file", .text key.toString),
        ("names", .count names.length)]⟩
  /-- The reuses and the retries in the log are those that are counted. -/
  counted : ∀ {σ : Type} (key : CanonicalKey) (names : List String) (load : Loader σ τ)
    (state : σ), c.CountsBatch key names c.stats (c.resolveNames key names load state).2.1.stats
  /-- A removal counts nothing, and is logged exactly when it takes something out. -/
  removed : ∀ key : CanonicalKey, (c.remove key).2.stats = c.stats ∧
    (c.remove key).1.seen =
      if (c.remove key).1.value then [.logged (.dropped c.label key)] else []
  /-- A clearing counts nothing. -/
  cleared : c.clear.2.stats = c.stats

/-- **Counters, log and loaders agree.** Behind every run of a cache, whatever its loaders do, the
counters balance with the names that were passed in and with the questions that were asked; and
whatever comes next is logged and counted alike. -/
theorem counters_balance [Target τ] (label : String) (ops : List (Operation τ)) :
    (Cache.after { label := label } ops).stats.Balances (transcript { label := label } ops) ∧
      (Cache.after (τ := τ) { label := label } ops).Accounts := by
  have hnew : Stats.Balances (τ := τ) [] {} := ⟨rfl, rfl, Nat.le_refl 0⟩
  refine ⟨Stats.Balances.after ops (c := { label := label }) hnew, ?_⟩
  constructor
  case log => exact fun key names load state => Cache.resolveNames_seen _ key names load state
  case span => exact fun _ _ => rfl
  case counted => exact fun key names load state => Cache.resolveNames_stats _ key names load state
  case removed => exact fun key => ⟨Cache.remove_stats _ key, Cache.remove_seen _ key⟩
  case cleared => rfl

end NameResolution
