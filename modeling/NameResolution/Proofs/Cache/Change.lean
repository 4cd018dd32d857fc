import Mathlib.Data.Set.Basic
import NameResolution.Proofs.Cache.Serving

/-!
# When a batch changes an entry

A batch says whether it changed its file's entry. The flag is raised while names are
served, one at a time, where an answer of the loader differs from the resolution that it
replaces. The loader is asked only for unknown names and for misses, so two targets are
never compared (`serve_isChange`), and the flag can be read off the two entries, the one
that the batch finds and the one that it leaves (`resolveNames_changed`): some name of the
batch was unknown, or was missed provisionally and has a target now. Names that the batch
no longer has do not raise it.
-/

namespace NameResolution

variable {σ τ : Type}

/-- Did the name come to be known between the two entries, or did its provisional miss come to
have a target? -/
def IsNews (previous next : Entry τ) (n : String) : Prop :=
  match previous.get? n with
  | none => True
  | some r => r.isReusable = false ∧ ∃ r', next.get? n = some r' ∧ r'.target.isSome = true

/-- What serving a name says of a change is what the two entries say of the name, when the batch
has not served it before. -/
theorem serve_isChange [Target τ] {previous next : Entry τ} {load : Loader σ τ} {name : String}
    {p : Progress σ τ}
    (hnext : next.get? name = some (serve previous load name p).1.resolution) :
    (serve previous load name p).1.isChange previous = true ↔
      p.fresh.get? name = none ∧ IsNews previous next name := by
  unfold IsNews
  rw [hnext]
  rcases serve_cases previous load name p with ⟨r, hf, hs⟩ | ⟨r, hf, hp, hr, hs⟩ | ⟨hf, hm, hs⟩
  · rw [hs]
    simp [Served.isChange, hf]
  · rw [hs]
    simp [Served.isChange, hp, hr]
  · rw [hs]
    cases hp : previous.get? name with
    | none => simp [Served.isChange, Resolution.confirms, hp, hf]
    | some r =>
      have hr : r.isReusable = false := by simpa [mustAsk, hp, Resolution.isReusable?] using hm
      have hmiss := Resolution.confirms_of_miss Target.sameFile
        (Resolution.target_of_not_isReusable hr) (load name p.loader).1.value
      simp [Served.isChange, hp, hmiss, hf, hr]

/-- Some name was served with a change exactly when some name that had not been served before is
news to the entry that the names end with. -/
theorem serveAll_isChange [Target τ] (previous : Entry τ) (load : Loader σ τ) :
    ∀ (names : List String) (p : Progress σ τ),
      (∃ s ∈ (serveAll previous load names p).1, s.isChange previous = true) ↔
        ∃ n ∈ names, p.fresh.get? n = none ∧
          IsNews previous (serveAll previous load names p).2.fresh n
  | [], p => by simp [serveAll]
  | name :: names, p => by
    have ih := serveAll_isChange previous load names (serve previous load name p).2
    -- what the first name is served with stands in the entry at the end
    have hname : (serve previous load name p).2.fresh.get? name =
        some (serve previous load name p).1.resolution := by
      rw [serve_fresh, if_pos rfl]
    have hlast : (serveAll previous load (name :: names) p).2.fresh.get? name =
        some (serve previous load name p).1.resolution := serveAll_fresh_of_some names hname
    have hfirst := serve_isChange hlast
    rw [serveAll_cons]
    constructor
    · rintro ⟨s, hs, hchange⟩
      rcases List.mem_cons.mp hs with rfl | hs
      · exact ⟨name, List.mem_cons_self, hfirst.mp hchange⟩
      · obtain ⟨n, hn, hfresh, hnews⟩ := ih.mp ⟨s, hs, hchange⟩
        rw [serve_fresh] at hfresh
        split at hfresh
        next => cases hfresh
        next => exact ⟨n, List.mem_cons_of_mem _ hn, hfresh, hnews⟩
    · rintro ⟨n, hn, hfresh, hnews⟩
      by_cases h : name = n
      · subst h
        exact ⟨_, List.mem_cons_self, hfirst.mpr ⟨hfresh, hnews⟩⟩
      · have hn' : n ∈ names := (List.mem_cons.mp hn).resolve_left fun he => h he.symm
        have hfresh' : (serve previous load name p).2.fresh.get? n = none := by
          rw [serve_fresh, if_neg h, hfresh]
        obtain ⟨s, hs, hchange⟩ := ih.mpr ⟨n, hn', hfresh', hnews⟩
        exact ⟨s, List.mem_cons_of_mem _ hs, hchange⟩

/-- A batch changes its file's entry exactly when one of its names is news to the entry it
leaves. -/
theorem Cache.resolveNames_changed [Target τ] (c : Cache τ) (key : CanonicalKey)
    (names : List String) (load : Loader σ τ) (state : σ) :
    (c.resolveNames key names load state).1.value.changed = true ↔
      ∃ n ∈ names, IsNews (c.entry key) ((c.entry key).rebuilt names load state) n := by
  show (c.servedNames key names load state).any (Served.isChange (c.entry key)) = true ↔ _
  rw [List.any_eq_true, servedNames, serveAll_isChange]
  simp [Entry.rebuilt]

/-- With a loader that answers by a function, a name is news when the entry does not know it, or
holds a provisional miss of it and the loader now has a target. -/
theorem isNews_rebuilt {previous : Entry τ} {names : List String} {load : Loader σ τ}
    {answer : String → Resolution τ} (hload : ∀ n state, (load n state).1.value = answer n)
    (state : σ) {n : String} (hn : n ∈ names) :
    IsNews previous (previous.rebuilt names load state) n ↔
      previous.get? n = none ∨
        ∃ r, previous.get? n = some r ∧ r.isReusable = false ∧ (answer n).target.isSome = true := by
  unfold IsNews
  cases hprev : previous.get? n with
  | none => simp
  | some r =>
    have hknown := (rebuilt_isSome previous names load state n).mpr hn
    obtain ⟨r', hr'⟩ := Option.isSome_iff_exists.mp hknown
    rcases rebuilt_origin _ _ _ _ hr' with ⟨hold, hreuse⟩ | ⟨-, _, rfl⟩
    · obtain rfl : r = r' := Option.some.inj (hprev.symm.trans hold)
      simp [hreuse]
    · simp [hr', hload]

/-! ## Unresolved names -/

/-- Does an entry know a name, and have no target for it? -/
def Entry.isUnresolved (e : Entry τ) (n : String) : Bool :=
  match e.get? n with
  | some r => r.target.isNone
  | none => false

/-- The names that an entry knows and has no target for. -/
def Entry.unresolved (e : Entry τ) : Set String := {n | e.isUnresolved n}

theorem Entry.mem_unresolved_iff {e : Entry τ} {n : String} :
    n ∈ e.unresolved ↔ e.isUnresolved n = true := Iff.rfl

/-- A name of the batch that is no news has a target behind the batch just if it had one before. -/
theorem mem_unresolved_rebuilt {previous : Entry τ} {names : List String} {load : Loader σ τ}
    {state : σ} {n : String} (hn : n ∈ names)
    (hnews : ¬ IsNews previous (previous.rebuilt names load state) n) :
    n ∈ (previous.rebuilt names load state).unresolved ↔ n ∈ previous.unresolved := by
  unfold IsNews at hnews
  cases hprev : previous.get? n with
  | none => simp [hprev] at hnews
  | some r =>
    have hknown := (rebuilt_isSome previous names load state n).mpr hn
    obtain ⟨r', hr'⟩ := Option.isSome_iff_exists.mp hknown
    have htarget : r'.target = none ↔ r.target = none := by
      rcases rebuilt_origin _ _ _ _ hr' with ⟨hold, -⟩ | ⟨hask, -⟩
      · rw [Option.some.inj (hprev.symm.trans hold)]
      -- the loader was asked again and still has no target, or the name would be news
      · have hopen : r.isReusable = false := by
          simpa [mustAsk, hprev, Resolution.isReusable?] using hask
        have hmiss : r.target = none := Resolution.target_of_not_isReusable hopen
        have hmiss' : r'.target = none := by simpa [hprev, hopen, hr'] using hnews
        simp [hmiss, hmiss']
    simp [Entry.mem_unresolved_iff, Entry.isUnresolved, hprev, hr', htarget]

/-- Without news, the unresolved names behind a batch are those of before that the batch still
has. -/
theorem unresolved_rebuilt {previous : Entry τ} {names : List String} {load : Loader σ τ}
    {state : σ} (hnews : ¬ ∃ n ∈ names, IsNews previous (previous.rebuilt names load state) n) :
    (previous.rebuilt names load state).unresolved = {n ∈ previous.unresolved | n ∈ names} := by
  ext n
  by_cases hn : n ∈ names
  · have hmem := mem_unresolved_rebuilt hn fun h => hnews ⟨n, hn, h⟩
    simp [hmem, hn]
  · -- the batch forgets the name
    have hnone : (previous.rebuilt names load state).get? n = none := by
      have hunknown := mt (rebuilt_isSome previous names load state n).mp hn
      simpa using hunknown
    simp [Entry.mem_unresolved_iff, Entry.isUnresolved, hnone, hn]

end NameResolution
