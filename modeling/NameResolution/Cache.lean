import NameResolution.Observation
import NameResolution.Resolution

/-!
# The resolution cache

For every file the cache keeps one *entry*: the resolutions of the names the
file referred to in its latest batch. A batch answers each name from the file's
previous entry where that may be reused, and asks the loader otherwise; then
the names of this batch, and no others, become the file's entry. Names a file
no longer refers to are forgotten that way.

How a name was served is a value, `Served`; the answers, the counters, the
change flag and the log of a batch are all read off the list of served names.
-/

namespace NameResolution

/-- The resolutions of one file's names. -/
abbrev Entry (τ : Type) := Table String (Resolution τ)

/-- How the names of all batches so far were served. -/
structure Stats where
  /-- Names answered from the file's previous entry. -/
  reused : Nat := 0
  /-- Names that stood earlier in the same batch. -/
  duplicates : Nat := 0
  /-- Names the loader was asked for. -/
  loaderInvocations : Nat := 0
  /-- Names the loader was asked for because the previous entry held a provisional miss. -/
  retriedMisses : Nat := 0
deriving Repr, DecidableEq

/-- Where the answer for a name came from. -/
inductive Origin where
  /-- The name stood earlier in the batch. -/
  | batch
  /-- The previous entry had a reusable resolution. -/
  | entry
  /-- The previous entry did not know the name; the loader was asked. -/
  | loader
  /-- The previous entry had a provisional miss; the loader was asked again. -/
  | retry
deriving Repr, DecidableEq

/-- One name of a batch as it was served. -/
structure Served (τ : Type) where
  name : String
  origin : Origin
  resolution : Resolution τ
  /-- What became visible while the loader worked. -/
  seen : List Observation

namespace Served

variable {τ : Type}

/-- Did the loader answer otherwise than the file's previous entry? Targets are compared by their
files. -/
def isChange [Target τ] (previous : Entry τ) (s : Served τ) : Bool :=
  match s.origin with
  | .batch | .entry => false
  | .loader | .retry => !s.resolution.confirms Target.sameFile (previous.get? s.name)

/-- What the cache itself reports about the name. -/
def events (s : Served τ) : List LogEvent :=
  match s.origin with
  | .entry => [.reusing s.name]
  | .retry => [.retrying s.name]
  | .batch | .loader => []

/-- Everything that became visible while the name was served. -/
def observations (s : Served τ) : List Observation :=
  s.events.map .logged ++ s.seen

end Served

def Stats.count (s : Stats) : Origin → Stats
  | .batch => { s with duplicates := s.duplicates + 1 }
  | .entry => { s with reused := s.reused + 1 }
  | .loader => { s with loaderInvocations := s.loaderInvocations + 1 }
  | .retry =>
    { s with
      loaderInvocations := s.loaderInvocations + 1
      retriedMisses := s.retriedMisses + 1 }

/-- A loader that keeps a state of type `σ` between questions. -/
abbrev Loader (σ τ : Type) := String → σ → Observed (Resolution τ) × σ

/-- The state while a batch is served: the entry that is being built, and the loader's state. -/
structure Progress (σ τ : Type) where
  fresh : Entry τ
  loader : σ

/-- Serves one name: from this batch, from the previous entry, or from the loader. -/
def serve {σ τ : Type} (previous : Entry τ) (load : Loader σ τ) (name : String)
    (p : Progress σ τ) : Served τ × Progress σ τ :=
  match p.fresh.get? name with
  | some r => (⟨name, .batch, r, []⟩, p)
  | none =>
    match previous.get? name with
    | some r =>
      if r.isReusable then (⟨name, .entry, r, []⟩, { p with fresh := p.fresh.insert name r })
      else
        let (answer, state) := load name p.loader
        (⟨name, .retry, answer.value, answer.seen⟩, ⟨p.fresh.insert name answer.value, state⟩)
    | none =>
      let (answer, state) := load name p.loader
      (⟨name, .loader, answer.value, answer.seen⟩, ⟨p.fresh.insert name answer.value, state⟩)

def serveAll {σ τ : Type} (previous : Entry τ) (load : Loader σ τ) :
    List String → Progress σ τ → List (Served τ) × Progress σ τ
  | [], p => ([], p)
  | name :: names, p =>
    let (s, p) := serve previous load name p
    let (ss, p) := serveAll previous load names p
    (s :: ss, p)

structure Batch (τ : Type) where
  /-- One slot per name, in the order of the names. -/
  targets : List (Option τ)
  /-- Did some answer of the loader differ from the resolution that it replaced? -/
  changed : Bool
deriving Repr, DecidableEq

/-- The entries of all files, and the counters. -/
structure Cache (τ : Type) where
  /-- What the log calls the cache. -/
  label : String
  files : Table CanonicalKey (Entry τ) := Table.empty
  stats : Stats := {}

namespace Cache

variable {σ τ : Type}

/-- Resolves names for a file. The loader is asked at most once for a name, in the order of the
names' first occurrences; the batch's names become the file's entry. -/
def resolveNames [Target τ] (c : Cache τ) (key : CanonicalKey) (names : List String)
    (load : Loader σ τ) (state : σ) : Observed (Batch τ) × Cache τ × σ :=
  let previous := (c.files.get? key).getD Table.empty
  let (served, done) := serveAll previous load names ⟨Table.empty, state⟩
  let batch : Batch τ := ⟨served.map (·.resolution.target), served.any (Served.isChange previous)⟩
  let seen := .logged (.resolvingNames c.label key names.length) ::
    served.flatMap Served.observations
  let stats := (served.map (·.origin)).foldl Stats.count c.stats
  (⟨batch, seen⟩, { c with files := c.files.insert key done.fresh, stats := stats }, done.loader)

def contains (c : Cache τ) (key : CanonicalKey) : Bool := c.files.contains key

/-- Drops a file's entry; says whether there was one. -/
def remove (c : Cache τ) (key : CanonicalKey) : Observed Bool × Cache τ :=
  if c.contains key then
    (⟨true, [.logged (.dropped c.label key)]⟩, { c with files := c.files.erase key })
  else (⟨false, []⟩, c)

/-- Drops every entry. The counters stay. -/
def clear (c : Cache τ) : Observed Unit × Cache τ :=
  (⟨(), [.logged (.clearing c.label c.files.size)]⟩, { c with files := Table.empty })

def size (c : Cache τ) : Nat := c.files.size

def isEmpty (c : Cache τ) : Bool := c.files.isEmpty

end Cache

end NameResolution
