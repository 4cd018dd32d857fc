import NameResolution.Proofs.Cache.Membership
import NameResolution.Proofs.Host.Forgetting

/-!
# Which files a host knows

A host says whether anything is cached for a file. It looks into two tables, and a batch writes into
one of them only; but whatever drops something drops it from both, so the answer is the flag of one
history (`Call.knows_run`): some batch for the file came behind the last removal of the file and the
last replacement of the settings. Files are the same when their canonical keys are, however they are
spelled, and every call makes its key of the current directory and the case policy that it finds.
-/

namespace NameResolution

/-- Does the call make the host forget the file with this key? -/
def Call.forgets (call : Call) (key : CanonicalKey) : Bool :=
  match call.request with
  | .removeFile file => (call.around.keyOf file).value = key
  | .replaceSettings _ => true
  | _ => false

/-- Does one of the caches know the file with this key? -/
def Host.knows (h : Host) (key : CanonicalKey) : Bool :=
  h.modules.contains key || h.types.contains key

theorem Host.hasCached_value (h : Host) (c : Collaborators) (file : String) :
    (h.hasCached c file).value = h.knows (c.keyOf file).value := rfl

/-- A batch for a file makes the host know it, and what makes it forget the file does so in both
caches. -/
theorem Call.knows_run (call : Call) (h : Host) (key : CanonicalKey) :
    (call.run h).2.knows key = (call.isBatchFor key || (!call.forgets key && h.knows key)) := by
  obtain ⟨c, request⟩ := call
  cases request with
  | resolveModules names file =>
    show ((h.modules.resolveNames (c.keyOf file).value names _ ()).2.1.contains key ||
      h.types.contains key) = _
    rw [Cache.contains_resolveNames, Bool.or_assoc]
    rfl
  | resolveTypes names file =>
    show (h.modules.contains key ||
      (h.types.resolveNames (c.keyOf file).value names _ ()).2.1.contains key) = _
    rw [Cache.contains_resolveNames, Bool.or_left_comm]
    rfl
  | removeFile file =>
    show ((h.modules.remove (c.keyOf file).value).2.contains key ||
      (h.types.remove (c.keyOf file).value).2.contains key) = _
    rw [Cache.contains_remove, Cache.contains_remove, ← Bool.and_or_distrib_left]
    rfl
  | replaceSettings settings => rfl
  | _ => rfl

/-- A host knows a file just if a batch for it came behind what last made it forget the file. -/
theorem Host.knows_after_iff (settings : Settings) (calls : List Call) (key : CanonicalKey) :
    ((Host.new settings).after calls).knows key = true ↔
      HoldsSince (Call.isBatchFor · key) (Call.forgets · key) calls :=
  foldl_iff_holdsSince (Host.knows · key) (fun h call => call.knows_run h key) rfl calls

/-- **What is cached can be told from the history alone.** A cache knows the files that had a batch
since they were last dropped, its size is their number, and a removal says whether there was
something to remove and touches no other file. A host says that something is cached for a file just
if it had a batch for the file, of modules or of type references, since the file was last removed
and the settings were last replaced. -/
theorem known_by_history :
    (∀ (τ : Type) [Target τ] (label : String) (ops : List (Operation τ)),
      Cache.KnowsByHistory ops (Cache.after { label := label } ops)) ∧
    (∀ (settings : Settings) (calls : List Call) (c : Collaborators) (file : String),
      (((Host.new settings).after calls).hasCached c file).value = true ↔
        HoldsSince (Call.isBatchFor · (c.keyOf file).value)
          (Call.forgets · (c.keyOf file).value) calls) := by
  refine ⟨fun τ _ label ops => Cache.knowsByHistory_after label ops, ?_⟩
  intro settings calls c file
  rw [Host.hasCached_value]
  exact Host.knows_after_iff settings calls _

end NameResolution
