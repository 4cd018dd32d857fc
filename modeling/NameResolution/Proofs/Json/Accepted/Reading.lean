import NameResolution.Json.Read
import NameResolution.Proofs.Json.Accepted.Tree

/-!
# Readers accept sound trees only

Whatever a reader makes of a tree, it looks at every part of it: if it succeeds, the
tree is sound. A reader that is made from another one has this property when the other
one has it, which is what `AcceptsSound` is for.
-/

namespace NameResolution.Json

variable {α β φ ρ : Type}

/-- The reader accepts sound trees only. -/
def AcceptsSound (read : Tree → Except Fault α) : Prop := ∀ {t a}, read t = .ok a → t.IsSound

/-- An outcome that is not at fault was none before it was mapped. -/
theorem of_map_ok {x : Except Fault α} {f : α → β} {b : β} (h : x.map f = .ok b) :
    ∃ a, x = .ok a := by
  cases x with
  | error fault => cases h
  | ok a => exact ⟨a, rfl⟩

/-- Only no fault goes through. -/
theorem of_failIf_ok {fault : Option Fault} {u : Unit} (h : failIf fault = .ok u) :
    fault = none := by
  cases fault with
  | none => rfl
  | some f => cases h

mutual

/-- A value that can be passed over is sound. -/
theorem Tree.isSound_of_skip : ∀ {t : Tree} {u : Unit}, t.skip = .ok u → t.IsSound
  | .word w, _, h => of_map_ok h
  | .numeral k s, _, h => .inr (of_failIf_ok h)
  | .quoted k s, _, h => .inr (of_failIf_ok h)
  | .array behind items, _, h => items.isSound_of_skip h
  | .object behind members, _, h => members.isSound_of_skip h
  | .broken f, _, h => by cases h

/-- What follows in an array is sound if it can be passed over. -/
theorem Items.isSound_of_skip : ∀ (items : Items) {u : Unit}, items.skip = .ok u → items.IsSound
  | .close, _, _ => trivial
  | .item behind value more, _, h => by
    rw [Items.skip] at h
    obtain ⟨_, hvalue, hmore⟩ := bind_eq_ok_iff.mp h
    exact ⟨Tree.isSound_of_skip hvalue, more.isSound_of_skip hmore⟩
  | .broken f, _, h => by cases h

/-- What follows in an object is sound if it can be passed over. -/
theorem Members.isSound_of_skip : ∀ (members : Members) {u : Unit},
    members.skip = .ok u → members.IsSound
  | .close, _, _ => trivial
  | .member key keySkipped value more, _, h => by
    rw [Members.skip] at h
    obtain ⟨_, hkey, h⟩ := bind_eq_ok_iff.mp h
    obtain ⟨_, hvalue, hmore⟩ := bind_eq_ok_iff.mp h
    exact ⟨.inr (of_failIf_ok hkey), Tree.isSound_of_skip hvalue, more.isSound_of_skip hmore⟩
  | .broken f, _, h => by cases h

end

mutual

/-- A value that is read, of any kind, is sound. -/
theorem Tree.isSound_of_readAny : ∀ (budget : Nat) {t : Tree} {u : Unit},
    t.readAny budget = .ok u → t.IsSound
  | _, .word w, _, h => of_map_ok h
  | _, .numeral k s, _, h => .inl (of_map_ok h)
  | _, .quoted k s, _, h => .inl (of_map_ok h)
  | budget, .array behind items, _, h => by
    rw [Tree.readAny] at h
    split at h
    next => cases h
    next => exact items.isSound_of_readAny (budget - 1) h
  | budget, .object behind members, _, h => by
    rw [Tree.readAny] at h
    split at h
    next => cases h
    next => exact members.isSound_of_readAny (budget - 1) h
  | _, .broken f, _, h => by cases h

/-- Items that are read, of any kind, are sound. -/
theorem Items.isSound_of_readAny : ∀ (budget : Nat) (items : Items) {u : Unit},
    items.readAny budget = .ok u → items.IsSound
  | _, .close, _, _ => trivial
  | budget, .item behind value more, _, h => by
    rw [Items.readAny] at h
    obtain ⟨_, hvalue, hmore⟩ := bind_eq_ok_iff.mp h
    exact ⟨Tree.isSound_of_readAny budget hvalue, more.isSound_of_readAny budget hmore⟩
  | _, .broken f, _, h => by cases h

/-- Members that are read, of any kind, are sound. -/
theorem Members.isSound_of_readAny : ∀ (budget : Nat) (members : Members) {u : Unit},
    members.readAny budget = .ok u → members.IsSound
  | _, .close, _, _ => trivial
  | budget, .member key keySkipped value more, _, h => by
    rw [Members.readAny] at h
    obtain ⟨_, hkey, h⟩ := bind_eq_ok_iff.mp h
    obtain ⟨_, hvalue, hmore⟩ := bind_eq_ok_iff.mp h
    exact ⟨.inl ⟨_, hkey⟩, Tree.isSound_of_readAny budget hvalue,
      more.isSound_of_readAny budget hmore⟩
  | _, .broken f, _, h => by cases h

end

namespace Tree

/-- Only a sound value is read as a text. -/
theorem acceptsSound_readString : AcceptsSound readString := by
  intro t a h
  cases t with
  | quoted k s => exact .inl (of_map_ok h)
  | _ => cases h

/-- Only a sound value is read as a number. -/
theorem acceptsSound_readCount : AcceptsSound readCount := by
  intro t a h
  cases t with
  | numeral k s =>
    cases k with
    | error f => cases h
    | ok x => exact .inl ⟨x, rfl⟩
  | _ => cases h

/-- A value that may be absent is sound when it is read, as `null` is. -/
theorem acceptsSound_readOptional {read : Tree → Except Fault α} (hread : AcceptsSound read) :
    AcceptsSound (readOptional read) := by
  intro t a h
  unfold readOptional at h
  split at h
  next => exact ⟨_, rfl⟩
  next =>
    obtain ⟨b, hb⟩ := of_map_ok h
    exact hread hb

end Tree

/-- Items that are read one by one are sound if the reader accepts sound values only. -/
theorem Items.isSound_of_readEach {read : Tree → Except Fault α} (hread : AcceptsSound read) :
    ∀ (items : Items) {l : List α}, items.readEach read = .ok l → items.IsSound
  | .close, _, _ => trivial
  | .item behind value more, _, h => by
    rw [Items.readEach] at h
    obtain ⟨_, hvalue, h⟩ := bind_eq_ok_iff.mp h
    obtain ⟨_, hmore, -⟩ := bind_eq_ok_iff.mp h
    exact ⟨hread hvalue, more.isSound_of_readEach hread hmore⟩
  | .broken f, _, h => by cases h

/-- Members that are read one by one are sound if the reader accepts sound values only. -/
theorem Members.isSound_of_readEach {read : Tree → Except Fault α} (hread : AcceptsSound read) :
    ∀ (members : Members) {l : List (String × α)},
      members.readEach read = .ok l → members.IsSound
  | .close, _, _ => trivial
  | .member key keySkipped value more, _, h => by
    rw [Members.readEach] at h
    obtain ⟨_, hkey, h⟩ := bind_eq_ok_iff.mp h
    obtain ⟨_, hvalue, h⟩ := bind_eq_ok_iff.mp h
    obtain ⟨_, hmore, -⟩ := bind_eq_ok_iff.mp h
    exact ⟨.inl ⟨_, hkey⟩, hread hvalue, more.isSound_of_readEach hread hmore⟩
  | .broken f, _, h => by cases h

namespace Tree

/-- Only a sound value is read as a list. -/
theorem acceptsSound_readList {read : Tree → Except Fault α} (hread : AcceptsSound read) :
    AcceptsSound (readList read) := by
  intro t a h
  cases t with
  | array behind items => exact items.isSound_of_readEach hread h
  | _ => cases h

/-- Only a sound value is read as a map. -/
theorem acceptsSound_readMap {read : Tree → Except Fault α} (hread : AcceptsSound read) :
    AcceptsSound (readMap read) := by
  intro t a h
  cases t with
  | object behind members => exact members.isSound_of_readEach hread h
  | _ => cases h

end Tree

/-! ## Records -/

/-- An array that ends is sound there. -/
theorem Items.isSound_of_readEnd {items : Items} {u : Unit} (h : items.readEnd = .ok u) :
    items.IsSound := by
  cases items with
  | close => trivial
  | _ => cases h

section Record

variable {read : φ → Tree → ρ → Except Fault ρ}

/-- An array that is read as a record is sound, behind its fields too. -/
theorem Items.isSound_of_readRecord (hread : ∀ f r, AcceptsSound (read f · r)) :
    ∀ (fields : List φ) (items : Items) (r : ρ) {r' : ρ},
      items.readRecord read fields r = .ok r' → items.IsSound
  | [], items, r, _, h => by
    rw [Items.readRecord] at h
    obtain ⟨_, hend, -⟩ := bind_eq_ok_iff.mp h
    exact Items.isSound_of_readEnd hend
  | f :: fields, .close, r, _, _ => trivial
  | f :: fields, .item behind value more, r, _, h => by
    rw [Items.readRecord] at h
    obtain ⟨r', hvalue, hmore⟩ := bind_eq_ok_iff.mp h
    exact ⟨hread f r hvalue, more.isSound_of_readRecord hread fields r' hmore⟩
  | f :: fields, .broken fault, r, _, h => by cases h

/-- Members that are read as a record are sound, those passed over too. -/
theorem Members.isSound_of_readRecord [DecidableEq φ] {fieldOf? : String → Option φ}
    (hread : ∀ f r, AcceptsSound (read f · r)) :
    ∀ (members : Members) (given : List φ) (r : ρ) {r' : ρ},
      members.readRecord fieldOf? read given r = .ok r' → members.IsSound
  | .close, given, r, _, _ => trivial
  | .member key keySkipped value more, given, r, _, h => by
    rw [Members.readRecord] at h
    obtain ⟨key, hkey, h⟩ := bind_eq_ok_iff.mp h
    -- a member that is no field is passed over, and a field is read
    cases hfield : fieldOf? (String.ofList key) with
    | none =>
      simp only [hfield] at h
      obtain ⟨_, hvalue, hmore⟩ := bind_eq_ok_iff.mp h
      exact ⟨.inl ⟨_, hkey⟩, Tree.isSound_of_skip hvalue,
        more.isSound_of_readRecord hread given r hmore⟩
    | some f =>
      simp only [hfield] at h
      split at h
      next => cases h
      next =>
        obtain ⟨r', hvalue, hmore⟩ := bind_eq_ok_iff.mp h
        exact ⟨.inl ⟨_, hkey⟩, hread f r hvalue,
          more.isSound_of_readRecord hread (f :: given) r' hmore⟩
  | .broken fault, given, r, _, h => by cases h

/-- Only a sound value is read as a record, in either form. -/
theorem Tree.acceptsSound_readRecord [DecidableEq φ] {fields : List φ}
    {fieldOf? : String → Option φ} (hread : ∀ f r, AcceptsSound (read f · r)) (start : ρ) :
    AcceptsSound (Tree.readRecord fields fieldOf? read start) := by
  intro t r h
  cases t with
  | object behind members => exact members.isSound_of_readRecord hread [] start h
  | array behind items => exact items.isSound_of_readRecord hread fields start h
  | _ => cases h

end Record

end NameResolution.Json
