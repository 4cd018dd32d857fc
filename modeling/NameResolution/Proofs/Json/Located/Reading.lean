import NameResolution.Proofs.Json.Located.Token
import NameResolution.Proofs.Json.Place

/-!
# Readers report faults of the tree

A reader makes up no fault with a place of its own: what it reports is a fault of some part of
the tree, or one that has no place. So a condition that the tokens of a text meet is met by the
parts of its tree (`treeOf_meets`) and by whatever a reader reports of it. A reader that is
made from another one has this property when the other one has it, which is what `Reports` is
for.
-/

namespace NameResolution.Json

variable {α φ ρ : Type} {P : Fault → Prop}

/-- The condition is met by faults that have no place, and by one at the end. -/
structure Admits (P : Fault → Prop) : Prop where
  atEnd : P (.malformed [])
  unfinished : P .unfinished
  mistyped : P .mistyped
  badFlag : ∀ text, P (.badFlag text)

/-- Being in a text that is not empty is such a condition. -/
theorem admits_isIn {text : List Char} (hne : text ≠ []) : Admits (Fault.IsIn text) :=
  ⟨isIn_end hne, trivial, trivial, fun _ => trivial⟩

/-! ## Trees -/

section Meets

variable (P)

mutual

/-- Whatever a part of the tree is at fault for meets a condition, and so does its place. -/
def Tree.Meets : Tree → Prop
  | .word value => (Lexeme.word value).Meets P
  | .numeral kept skipped => (Lexeme.numeral kept skipped).Meets P
  | .quoted kept skipped => (Lexeme.quoted kept skipped).Meets P
  | .array behind items => P (.malformed behind) ∧ items.Meets
  | .object behind members => P (.malformed behind) ∧ members.Meets
  | .broken f => P f

def Items.Meets : Items → Prop
  | .close => True
  | .item behind value more => P (.malformed behind) ∧ value.Meets ∧ more.Meets
  | .broken f => P f

def Members.Meets : Members → Prop
  | .close => True
  | .member key keySkipped value more =>
    (Lexeme.quoted key keySkipped).Meets P ∧ value.Meets ∧ more.Meets
  | .broken f => P f

end

end Meets

/-- The tokens meet the condition, one by one. -/
def AllMeet (P : Fault → Prop) (ts : List Token) : Prop := ∀ t ∈ ts, t.Meets P

/-- Fewer tokens meet the condition too. -/
theorem AllMeet.tail {t : Token} {ts : List Token} (h : AllMeet P (t :: ts)) : AllMeet P ts :=
  fun u hu => h u (List.mem_cons_of_mem _ hu)

/-- A token that does not fit is a fault at its own place, which meets the condition. -/
theorem AllMeet.misfit {t : Token} {ts : List Token} (h : AllMeet P (t :: ts)) (hP : Admits P) :
    P t.misfit := by
  unfold Token.misfit
  split
  next => exact hP.unfinished
  next => exact (h t List.mem_cons_self).2

/-- The value of a member meets the condition, and so do the tokens behind it, if that holds of
values. -/
theorem fieldAt_meets {fuel : ℕ} (hP : Admits P)
    (hvalue : ∀ ts, AllMeet P ts →
      (valueAt fuel ts).1.Meets P ∧ AllMeet P (valueAt fuel ts).2)
    {ts : List Token} (h : AllMeet P ts) :
    (fieldAt fuel ts).1.Meets P ∧ AllMeet P (fieldAt fuel ts).2 := by
  match ts with
  | [] => exact ⟨hP.unfinished, h⟩
  | ⟨lexeme, behind⟩ :: ts =>
    cases lexeme with
    | colon => exact hvalue ts h.tail
    | _ => exact ⟨h.misfit hP, h⟩

mutual

/-- The value at the head of tokens meets what they meet. -/
theorem valueAt_meets (hP : Admits P) : ∀ (fuel : ℕ) (ts : List Token), AllMeet P ts →
    (valueAt fuel ts).1.Meets P ∧ AllMeet P (valueAt fuel ts).2
  | 0, _, h => ⟨hP.unfinished, h⟩
  | _ + 1, [], h => ⟨hP.unfinished, h⟩
  | fuel + 1, ⟨lexeme, behind⟩ :: ts, h => by
    have hhead := h _ List.mem_cons_self
    cases lexeme with
    | word value => exact ⟨hhead.1, h.tail⟩
    | numeral kept skipped => exact ⟨hhead.1, h.tail⟩
    | quoted kept skipped => exact ⟨hhead.1, h.tail⟩
    | openBracket =>
      obtain ⟨hitems, hrest⟩ := itemsAt_meets hP fuel true ts h.tail
      exact ⟨⟨hhead.2, hitems⟩, hrest⟩
    | openBrace =>
      obtain ⟨hmembers, hrest⟩ := membersAt_meets hP fuel true ts h.tail
      exact ⟨⟨hhead.2, hmembers⟩, hrest⟩
    | _ => exact ⟨h.misfit hP, h⟩

/-- What follows in an array meets what the tokens meet, and so do the tokens behind it. -/
theorem itemsAt_meets (hP : Admits P) : ∀ (fuel : ℕ) (start : Bool) (ts : List Token),
    AllMeet P ts → (itemsAt fuel start ts).1.Meets P ∧ AllMeet P (itemsAt fuel start ts).2
  | 0, _, _, h => ⟨hP.unfinished, h⟩
  | _ + 1, _, [], h => ⟨hP.unfinished, h⟩
  | fuel + 1, start, t :: ts, h => by
    unfold itemsAt
    split
    next => exact ⟨trivial, h.tail⟩
    next => exact ⟨hP.unfinished, h⟩
    next => exact itemAt_meets hP fuel ts h.tail
    next => exact itemAt_meets hP fuel (t :: ts) h
    next => exact ⟨h.misfit hP, h⟩

/-- An item meets what the tokens meet, and so do the tokens behind it. -/
theorem itemAt_meets (hP : Admits P) : ∀ (fuel : ℕ) (ts : List Token),
    AllMeet P ts → (itemAt fuel ts).1.Meets P ∧ AllMeet P (itemAt fuel ts).2
  | 0, _, h => ⟨hP.unfinished, h⟩
  | fuel + 1, ts, h => by
    obtain ⟨hvalue, hbehind⟩ := valueAt_meets hP fuel ts h
    obtain ⟨hmore, hrest⟩ := itemsAt_meets hP fuel false _ hbehind
    refine ⟨⟨?_, hvalue, hmore⟩, hrest⟩
    -- an item is placed at its first token
    cases ts with
    | nil => exact hP.atEnd
    | cons t ts => exact (h t List.mem_cons_self).2

/-- What follows in an object meets what the tokens meet, and so do the tokens behind it. -/
theorem membersAt_meets (hP : Admits P) : ∀ (fuel : ℕ) (start : Bool) (ts : List Token),
    AllMeet P ts → (membersAt fuel start ts).1.Meets P ∧ AllMeet P (membersAt fuel start ts).2
  | 0, _, _, h => ⟨hP.unfinished, h⟩
  | _ + 1, _, [], h => ⟨hP.unfinished, h⟩
  | fuel + 1, start, t :: ts, h => by
    unfold membersAt
    split
    next => exact ⟨trivial, h.tail⟩
    next => exact memberAt_meets hP fuel ts h.tail
    next => exact memberAt_meets hP fuel (t :: ts) h
    next => exact ⟨h.misfit hP, h⟩

/-- A member meets what the tokens meet, and so do the tokens behind it. -/
theorem memberAt_meets (hP : Admits P) : ∀ (fuel : ℕ) (ts : List Token),
    AllMeet P ts → (memberAt fuel ts).1.Meets P ∧ AllMeet P (memberAt fuel ts).2
  | 0, _, h => ⟨hP.unfinished, h⟩
  | _ + 1, [], h => ⟨hP.unfinished, h⟩
  | fuel + 1, ⟨lexeme, behind⟩ :: ts, h => by
    cases lexeme with
    | quoted key skipped =>
      rw [memberAt_quoted]
      obtain ⟨hvalue, hbehind⟩ := fieldAt_meets hP (valueAt_meets hP fuel) h.tail
      obtain ⟨hmore, hrest⟩ := membersAt_meets hP fuel false _ hbehind
      exact ⟨⟨(h _ List.mem_cons_self).1, hvalue, hmore⟩, hrest⟩
    | _ => exact ⟨h.misfit hP, h⟩

end

/-- The tree of tokens meets what the tokens meet. -/
theorem treeOf_meets (hP : Admits P) {ts : List Token} (h : AllMeet P ts) :
    (treeOf ts).1.Meets P ∧ AllMeet P (treeOf ts).2 :=
  valueAt_meets hP _ ts h

/-! ## Readers -/

/-- Whatever the reader reports of a tree meets what the tree meets. -/
def Reports (P : Fault → Prop) (read : Tree → Except Fault α) : Prop :=
  ∀ ⦃t f⦄, t.Meets P → read t = .error f → P f

/-- A fault that goes through is the one that was there. -/
theorem of_failIf_error {fault : Option Fault} {f : Fault} (h : failIf fault = .error f) :
    fault = some f := by
  cases fault with
  | none => cases h
  | some f' => exact congrArg some (Except.error.inj h)

mutual

/-- The fault of passing over a value is a fault of one of its parts. -/
theorem Tree.meets_of_skip : ∀ {t : Tree} {f : Fault}, t.Meets P → t.skip = .error f → P f
  | .word _, f, ht, h => ht f (of_map_error h)
  | .numeral _ _, f, ht, h => ht.2 f (of_failIf_error h)
  | .quoted _ _, f, ht, h => ht.2 f (of_failIf_error h)
  | .array _ items, _, ht, h => items.meets_of_skip ht.2 h
  | .object _ members, _, ht, h => members.meets_of_skip ht.2 h
  | .broken _, _, ht, h => Except.error.inj h ▸ ht

/-- The fault of passing over items is a fault of one of their parts. -/
theorem Items.meets_of_skip : ∀ (items : Items) {f : Fault},
    items.Meets P → items.skip = .error f → P f
  | .close, _, _, h => by cases h
  | .item behind value more, _, ⟨_, hvalue, hmore⟩, h => by
    rw [Items.skip] at h
    rcases of_bind_error h with h | ⟨_, -, h⟩
    · exact Tree.meets_of_skip hvalue h
    · exact more.meets_of_skip hmore h
  | .broken f, _, ht, h => Except.error.inj h ▸ ht

/-- The fault of passing over members is a fault of one of their parts. -/
theorem Members.meets_of_skip : ∀ (members : Members) {f : Fault},
    members.Meets P → members.skip = .error f → P f
  | .close, _, _, h => by cases h
  | .member key keySkipped value more, f, ⟨hkey, hvalue, hmore⟩, h => by
    rw [Members.skip] at h
    rcases of_bind_error h with h | ⟨_, -, h⟩
    · exact hkey.2 f (of_failIf_error h)
    rcases of_bind_error h with h | ⟨_, -, h⟩
    · exact Tree.meets_of_skip hvalue h
    · exact more.meets_of_skip hmore h
  | .broken f, _, ht, h => Except.error.inj h ▸ ht

end

mutual

/-- The fault of reading a value of any kind is a fault of one of its parts, or at the bracket that
nests too deep. -/
theorem Tree.meets_of_readAny : ∀ (budget : ℕ) {t : Tree} {f : Fault},
    t.Meets P → t.readAny budget = .error f → P f
  | _, .word _, f, ht, h => ht f (of_map_error h)
  | _, .numeral _ _, f, ht, h => ht.1 f (of_map_error h)
  | _, .quoted _ _, f, ht, h => ht.1 f (of_map_error h)
  | budget, .array behind items, _, ht, h => by
    rw [Tree.readAny] at h
    split at h
    next =>
      obtain rfl := Except.error.inj h
      exact ht.1
    next => exact items.meets_of_readAny (budget - 1) ht.2 h
  | budget, .object behind members, _, ht, h => by
    rw [Tree.readAny] at h
    split at h
    next =>
      obtain rfl := Except.error.inj h
      exact ht.1
    next => exact members.meets_of_readAny (budget - 1) ht.2 h
  | _, .broken f, _, ht, h => Except.error.inj h ▸ ht

/-- The fault of reading items of any kind is a fault of one of their parts, or at such a bracket.
-/
theorem Items.meets_of_readAny : ∀ (budget : ℕ) (items : Items) {f : Fault},
    items.Meets P → items.readAny budget = .error f → P f
  | _, .close, _, _, h => by cases h
  | budget, .item behind value more, _, ⟨_, hvalue, hmore⟩, h => by
    rw [Items.readAny] at h
    rcases of_bind_error h with h | ⟨_, -, h⟩
    · exact Tree.meets_of_readAny budget hvalue h
    · exact more.meets_of_readAny budget hmore h
  | _, .broken f, _, ht, h => Except.error.inj h ▸ ht

/-- The fault of reading members of any kind is a fault of one of their parts, or at such a bracket.
-/
theorem Members.meets_of_readAny : ∀ (budget : ℕ) (members : Members) {f : Fault},
    members.Meets P → members.readAny budget = .error f → P f
  | _, .close, _, _, h => by cases h
  | budget, .member key keySkipped value more, f, ⟨hkey, hvalue, hmore⟩, h => by
    rw [Members.readAny] at h
    rcases of_bind_error h with h | ⟨_, -, h⟩
    · exact hkey.1 f h
    rcases of_bind_error h with h | ⟨_, -, h⟩
    · exact Tree.meets_of_readAny budget hvalue h
    · exact more.meets_of_readAny budget hmore h
  | _, .broken f, _, ht, h => Except.error.inj h ▸ ht

end

namespace Tree

/-- The fault of a value of the wrong kind is its own, or one without a place. -/
theorem meets_wrongKind (hP : Admits P) {t : Tree} (h : t.Meets P) : P t.wrongKind := by
  cases t with
  | word w =>
    cases w with
    | error f => exact h f rfl
    | ok w => exact hP.mistyped
  | numeral k s =>
    cases k with
    | error f => exact h.1 f rfl
    | ok x => exact hP.mistyped
  | quoted k s =>
    cases k with
    | error f => exact h.1 f rfl
    | ok cs => exact hP.mistyped
  | broken f => exact h
  | _ => exact hP.mistyped

/-- A value of the wrong kind is reported as such. -/
theorem meets_of_error_wrongKind (hP : Admits P) {t : Tree} {f : Fault} (ht : t.Meets P)
    (h : (.error t.wrongKind : Except Fault α) = .error f) : P f :=
  Except.error.inj h ▸ meets_wrongKind hP ht

/-- Reading a text reports what the tree meets. -/
theorem reports_readString (hP : Admits P) : Reports P readString := by
  intro t f ht h
  cases t with
  | quoted k s => exact ht.1 f (of_map_error h)
  | _ => exact meets_of_error_wrongKind hP ht h

/-- Reading a number reports what the tree meets. -/
theorem reports_readCount (hP : Admits P) : Reports P readCount := by
  intro t f ht h
  cases t with
  | numeral k s =>
    cases k with
    | error fault => exact meets_of_error_wrongKind hP ht h
    | ok x =>
      simp only [readCount] at h
      split at h
      next => cases h
      next =>
        obtain rfl := Except.error.inj h
        exact hP.mistyped
  | _ => exact meets_of_error_wrongKind hP ht h

/-- A value that may be absent is reported on as a present one is. -/
theorem reports_readOptional {read : Tree → Except Fault α} (hread : Reports P read) :
    Reports P (readOptional read) := by
  intro t f ht h
  unfold readOptional at h
  split at h
  next => cases h
  next => exact hread ht (of_map_error h)

end Tree

/-- Reading items one by one reports what they meet, if the reader of an item does. -/
theorem Items.meets_of_readEach {read : Tree → Except Fault α} (hread : Reports P read) :
    ∀ (items : Items) {f : Fault}, items.Meets P → items.readEach read = .error f → P f
  | .close, _, _, h => by cases h
  | .item behind value more, _, ⟨_, hvalue, hmore⟩, h => by
    rw [Items.readEach] at h
    rcases of_bind_error h with h | ⟨_, -, h⟩
    · exact hread hvalue h
    rcases of_bind_error h with h | ⟨_, -, h⟩
    · exact more.meets_of_readEach hread hmore h
    · cases h
  | .broken f, _, ht, h => Except.error.inj h ▸ ht

/-- Reading members one by one reports what they meet, if the reader of a value does. -/
theorem Members.meets_of_readEach {read : Tree → Except Fault α} (hread : Reports P read) :
    ∀ (members : Members) {f : Fault}, members.Meets P → members.readEach read = .error f → P f
  | .close, _, _, h => by cases h
  | .member key keySkipped value more, f, ⟨hkey, hvalue, hmore⟩, h => by
    rw [Members.readEach] at h
    rcases of_bind_error h with h | ⟨_, -, h⟩
    · exact hkey.1 f h
    rcases of_bind_error h with h | ⟨_, -, h⟩
    · exact hread hvalue h
    rcases of_bind_error h with h | ⟨_, -, h⟩
    · exact more.meets_of_readEach hread hmore h
    · cases h
  | .broken f, _, ht, h => Except.error.inj h ▸ ht

namespace Tree

/-- Reading a list reports what the tree meets, if the reader of an item does. -/
theorem reports_readList (hP : Admits P) {read : Tree → Except Fault α} (hread : Reports P read) :
    Reports P (readList read) := by
  intro t f ht h
  cases t with
  | array behind items => exact items.meets_of_readEach hread ht.2 h
  | _ => exact meets_of_error_wrongKind hP ht h

/-- Reading a map reports what the tree meets, if the reader of a value does. -/
theorem reports_readMap (hP : Admits P) {read : Tree → Except Fault α} (hread : Reports P read) :
    Reports P (readMap read) := by
  intro t f ht h
  cases t with
  | object behind members => exact members.meets_of_readEach hread ht.2 h
  | _ => exact meets_of_error_wrongKind hP ht h

end Tree

/-! ## Records -/

/-- Where an array goes on too long, the fault is at the item that is too much. -/
theorem Items.meets_of_readEnd {items : Items} {f : Fault} (ht : items.Meets P)
    (h : items.readEnd = .error f) : P f := by
  cases items with
  | close => cases h
  | item behind value more => exact Except.error.inj h ▸ ht.1
  | broken fault => exact Except.error.inj h ▸ ht

section Record

variable {read : φ → Tree → ρ → Except Fault ρ}

/-- A record given as an array is reported on by its fields, and by what is behind them. -/
theorem Items.meets_of_readRecord (hread : ∀ f r, Reports P (read f · r)) :
    ∀ (fields : List φ) (items : Items) (r : ρ) {f : Fault},
      items.Meets P → items.readRecord read fields r = .error f → P f
  | [], items, r, _, ht, h => by
    rw [Items.readRecord] at h
    rcases of_bind_error h with h | ⟨_, -, h⟩
    · exact Items.meets_of_readEnd ht h
    · cases h
  | _ :: _, .close, r, _, _, h => by cases h
  | field :: fields, .item behind value more, r, _, ⟨_, hvalue, hmore⟩, h => by
    rw [Items.readRecord] at h
    rcases of_bind_error h with h | ⟨r', -, h⟩
    · exact hread field r hvalue h
    · exact more.meets_of_readRecord hread fields r' hmore h
  | _ :: _, .broken fault, r, _, ht, h => Except.error.inj h ▸ ht

/-- A record's members are reported on by its fields, and by those passed over. -/
theorem Members.meets_of_readRecord [DecidableEq φ] {fieldOf? : String → Option φ}
    (hP : Admits P) (hread : ∀ f r, Reports P (read f · r)) :
    ∀ (members : Members) (given : List φ) (r : ρ) {f : Fault},
      members.Meets P → members.readRecord fieldOf? read given r = .error f → P f
  | .close, given, r, _, _, h => by cases h
  | .member key keySkipped value more, given, r, f, ⟨hkey, hvalue, hmore⟩, h => by
    rw [Members.readRecord] at h
    rcases of_bind_error h with h | ⟨key, -, h⟩
    · exact hkey.1 f h
    -- a member that is no field is passed over, and a field may be given once
    cases hfield : fieldOf? (String.ofList key) with
    | none =>
      simp only [hfield] at h
      rcases of_bind_error h with h | ⟨_, -, h⟩
      · exact Tree.meets_of_skip hvalue h
      · exact more.meets_of_readRecord hP hread given r hmore h
    | some field =>
      simp only [hfield] at h
      split at h
      next =>
        obtain rfl := Except.error.inj h
        exact hP.mistyped
      next =>
        rcases of_bind_error h with h | ⟨r', -, h⟩
        · exact hread field r hvalue h
        · exact more.meets_of_readRecord hP hread (field :: given) r' hmore h
  | .broken fault, given, r, _, ht, h => Except.error.inj h ▸ ht

/-- Reading a record reports what the tree meets, in either form, if the readers of its fields do.
-/
theorem Tree.reports_readRecord [DecidableEq φ] {fields : List φ} {fieldOf? : String → Option φ}
    (hP : Admits P) (hread : ∀ f r, Reports P (read f · r)) (start : ρ) :
    Reports P (Tree.readRecord fields fieldOf? read start) := by
  intro t f ht h
  cases t with
  | object behind members => exact members.meets_of_readRecord hP hread [] start ht.2 h
  | array behind items => exact items.meets_of_readRecord hread fields start ht.2 h
  | _ => exact Tree.meets_of_error_wrongKind hP ht h

end Record

end NameResolution.Json
