import NameResolution.Disk.Walk
import NameResolution.Proofs.Path.Child

/-!
# The rules of walking along a path

`Disk.follow` walks along the steps of a path. Each step has an equation
(`follow_stay`, `follow_up`, `follow_down`), and what holds after every step holds of
the whole walk (`walk_induction`). How a walk goes on from one directory to another is
also said by rules, `Disk.Comes`, and what it arrives at by `Disk.Arrives`; whatever a
walk arrives at, it arrives at by the rules (`arrives_of_follow`).

Walking on from where a first part leads is walking along both parts, with as many links
less to follow as the first part has used up (`Comes.follow_append`). A walk that is not
stopped for its number of links goes the same way with more of them (`follow_mono`).
-/

namespace NameResolution

/-- The spot of what stands under a name in the directory at a spot. -/
def Spot.below (s : Spot) (name : List Char) : Spot := ⟨s.place ++ [name], 0⟩

/-- Can something stand under a name in the directory at a spot? -/
def Spot.Admits (s : Spot) (name : List Char) : Prop := s.gone = 0 ∧ byteLength name ≤ nameLimit

namespace Disk

/-- What stands under a name in the directory at a spot. -/
def at? (d : Disk) (s : Spot) (name : List Char) : Option Node := d.node? (s.below name).place

variable {d : Disk} {f : Bool} {s t u : Spot} {name target : List Char}
variable {steps left more : List Step} {j k n m : Nat}

/-- What holds of the root and of the base holds of where a path starts from. -/
theorem startOf_cases {motive : Spot → Prop} (root : motive .root) (base : motive s)
    (text : List Char) : motive (startOf s text) := by
  unfold startOf
  split
  next => exact root
  next => exact base

/-- An absolute path starts from the root. -/
theorem startOf_of_absolute {p : Path} (h : p.isAbsolute = true) :
    startOf s p.spelling = .root := by
  rw [startOf, if_pos (beq_iff_eq.mp h)]

/-- A relative path starts from the base. -/
theorem startOf_of_relative {p : Path} (h : p.isAbsolute = false) : startOf s p.spelling = s := by
  rw [startOf, if_neg (beq_eq_false_iff_ne.mp h)]

/-! ## One step of a walk -/

/-- With more links to follow, what was not stopped for their number ends the same way. -/
theorem followLegs_mono {α : Type} {leg : Spot → List Step → Except FileError (Leg α)}
    (h : followLegs leg n s steps ≠ .error .tooManyLinks) (hle : n ≤ m) :
    followLegs leg m s steps = followLegs leg n s steps := by
  induction n generalizing m s steps with
  | zero =>
    rw [followLegs] at h ⊢
    rw [followLegs]
    cases hleg : leg s steps with
    | error e => rfl
    | ok far =>
      cases far with
      | arrived outcome => rfl
      | link base target rest =>
        rw [hleg] at h
        exact absurd rfl h
  | succ n ih =>
    obtain ⟨m, rfl⟩ := Nat.exists_eq_add_of_lt (Nat.lt_of_succ_le hle)
    rw [followLegs] at h ⊢
    rw [followLegs]
    cases hleg : leg s steps with
    | error e => rfl
    | ok far =>
      cases far with
      | arrived outcome => rfl
      | link base target rest =>
        rw [hleg] at h
        exact ih h (by omega)

/-- A walk goes to the first link, and on from there. -/
theorem follow_eq :
    d.follow f n s steps =
      match d.leg f s .directory steps with
      | .error e => .error e
      | .ok (.arrived a) => .ok a
      | .ok (.link base target rest) =>
        match n with
        | 0 => .error .tooManyLinks
        | m + 1 => d.follow f m (startOf base target) (Step.ofText target ++ rest) := by
  unfold follow
  rw [followLegs]
  rcases d.leg f s .directory steps with e | a | ⟨base, target, rest⟩
  · rfl
  · rfl
  · cases n <;> rfl

/-- Without steps, a walk has arrived at the directory it is in. -/
theorem follow_nil : d.follow f n s [] = .ok (.found s .directory) := by
  rw [follow_eq, leg]

/-- A step that stays is passed over. -/
theorem follow_stay : d.follow f n s (.stay :: steps) = d.follow f n s steps := by
  rw [follow_eq, follow_eq, leg]

/-- A step up goes on from the directory above. -/
theorem follow_up : d.follow f n s (.up :: steps) = d.follow f n s.up steps := by
  rw [follow_eq, follow_eq, leg]

/-- A step down goes on as what stands under the name says. -/
theorem follow_down (h : s.Admits name) :
    d.follow f n s (.down name :: steps) =
      match d.at? s name with
      | none => if steps = [] then .ok (.vacant s name) else .error .notFound
      | some .directory => d.follow f n (s.below name) steps
      | some (.file bytes) =>
        if steps = [] then .ok (.found (s.below name) (.file bytes)) else .error .notADirectory
      | some (.link target) =>
        if steps = [] ∧ f = false then .ok (.found (s.below name) (.link target))
        else match n with
          | 0 => .error .tooManyLinks
          | m + 1 => d.follow f m (startOf s target) (Step.ofText target ++ steps) := by
  have hgone : ¬ s.gone ≠ 0 := not_not.mpr h.1
  have hfits : ¬ nameLimit < byteLength name := Nat.not_lt.mpr h.2
  rw [follow_eq, leg, if_neg hgone, if_neg hfits]
  have hat : ∀ node?, d.at? s name = node? → d.node? (s.place ++ [name]) = node? := fun _ h => h
  cases hnode : d.at? s name with
  | none =>
    simp only [hat _ hnode]
    by_cases hsteps : steps = []
    · simp [hsteps]
    · simp [hsteps]
  | some node =>
    simp only [hat _ hnode]
    cases node with
    | directory =>
      rw [follow_eq]
      rfl
    | file bytes =>
      cases steps with
      | nil => rfl
      | cons step rest => cases step <;> rfl
    | link target =>
      by_cases hlast : steps = [] ∧ f = false
      · simp [hlast, Spot.below]
      · cases n <;> simp [hlast]

/-- Under a name that nothing can stand under, a walk ends. -/
theorem follow_down_of_not_admits (h : ¬ s.Admits name) :
    d.follow f n s (.down name :: steps) =
      .error (if s.gone = 0 then .nameTooLong else .notFound) := by
  by_cases hgone : s.gone = 0
  · have hlong : nameLimit < byteLength name := by
      by_contra hfits
      exact h ⟨hgone, Nat.not_lt.mp hfits⟩
    rw [follow_eq, leg, if_neg (not_not.mpr hgone), if_pos hlong, if_pos hgone]
  · rw [follow_eq, leg, if_pos hgone, if_neg hgone]

/-- Where links at the end are not followed, a walk down one name finds just what stands there. -/
theorem follow_last_iff {node : Node} :
    (∃ u, d.follow false n s [.down name] = .ok (.found u node)) ↔
      s.Admits name ∧ d.at? s name = some node := by
  by_cases hadmits : s.Admits name
  · rw [follow_down hadmits]
    cases hat : d.at? s name with
    | none => simp
    | some stands =>
      cases stands with
      | directory => simp [follow_nil, hadmits]
      | file bytes => simp [hadmits]
      | link target => simp [hadmits]
  · rw [follow_down_of_not_admits hadmits]
    simp [hadmits]

/-- A walk down one name comes to a directory if one stands there, or a link that leads to one. -/
theorem follow_directory_iff :
    (∃ u, d.follow true n s [.down name] = .ok (.found u .directory)) ↔
      s.Admits name ∧ (d.at? s name = some .directory ∨
        (∃ target, d.at? s name = some (.link target)) ∧
          ∃ u, d.follow true n s [.down name] = .ok (.found u .directory)) := by
  by_cases hadmits : s.Admits name
  · rw [follow_down hadmits]
    cases hat : d.at? s name with
    | none => simp
    | some stands =>
      cases stands with
      | directory => simp [follow_nil, hadmits]
      | file bytes => simp
      | link target => simp [hadmits]
  · rw [follow_down_of_not_admits hadmits]
    simp [hadmits]

/-- What holds after every step of a walk holds of the walk. The induction is on the number of links
that may be followed, and for one number along the steps. -/
theorem walk_induction {motive : Nat → Spot → List Step → Prop}
    (nil : ∀ n s, motive n s [])
    (stay : ∀ n s steps, motive n s steps → motive n s (.stay :: steps))
    (up : ∀ n s steps, motive n s.up steps → motive n s (.up :: steps))
    (down : ∀ n s name steps, motive n (s.below name) steps →
      (∀ m target, n = m + 1 → motive m (startOf s target) (Step.ofText target ++ steps)) →
      motive n s (.down name :: steps))
    (n : Nat) (s : Spot) (steps : List Step) : motive n s steps := by
  induction n using Nat.strongRecOn generalizing s steps with
  | _ n ihn =>
    induction steps generalizing s with
    | nil => exact nil n s
    | cons step steps ih =>
      cases step with
      | stay => exact stay n s steps (ih s)
      | up => exact up n s steps (ih s.up)
      | down name => exact down n s name steps (ih _) fun m target h => ihn m (by omega) _ _

/-! ## The rules -/

/-- How a walk goes on: from a spot along some steps, with a number of links followed on the way,
it comes to the directory at `t` with the steps `left` before it. -/
inductive Comes (d : Disk) (t : Spot) (left : List Step) : Nat → Spot → List Step → Prop
  | here : Comes d t left 0 t left
  | stay {k : Nat} {s : Spot} {steps : List Step} :
      Comes d t left k s steps → Comes d t left k s (.stay :: steps)
  | up {k : Nat} {s : Spot} {steps : List Step} :
      Comes d t left k s.up steps → Comes d t left k s (.up :: steps)
  | down {k : Nat} {s : Spot} {name : List Char} {steps : List Step} :
      s.Admits name → d.at? s name = some .directory →
      Comes d t left k (s.below name) steps → Comes d t left k s (.down name :: steps)
  | link {k : Nat} {s : Spot} {name target : List Char} {steps : List Step} :
      s.Admits name → d.at? s name = some (.link target) →
      Comes d t left k (startOf s target) (Step.ofText target ++ steps) →
      Comes d t left (k + 1) s (.down name :: steps)

namespace Comes

/-- What comes behind the steps is left over. -/
theorem append (h : d.Comes t left k s steps) (more : List Step) :
    d.Comes t (left ++ more) k s (steps ++ more) := by
  induction h with
  | here => exact here
  | stay _ ih => exact stay ih
  | up _ ih => exact up ih
  | down hs hat _ ih => exact down hs hat ih
  | link hs hat _ ih => exact link hs hat (List.append_assoc _ _ _ ▸ ih)

/-- A walk goes on from where its first part comes to. -/
theorem trans (h : d.Comes t left j s steps) (h' : d.Comes u more k t left) :
    d.Comes u more (j + k) s steps := by
  induction h with
  | here => rwa [Nat.zero_add]
  | stay _ ih => exact stay ih
  | up _ ih => exact up ih
  | down hs hat _ ih => exact down hs hat ih
  | link hs hat _ ih =>
    rw [Nat.add_right_comm]
    exact link hs hat ih

/-- A walk along two parts comes somewhere along the first, and from there along the second. -/
theorem split (h : d.Comes t [] n s (steps ++ more)) :
    ∃ j k u, d.Comes u [] j s steps ∧ d.Comes t [] k u more ∧ j + k = n := by
  generalize hwhole : steps ++ more = whole at h
  induction h generalizing steps with
  | here =>
    obtain ⟨rfl, rfl⟩ := List.append_eq_nil_iff.mp hwhole
    exact ⟨0, 0, t, here, here, rfl⟩
  | @stay k s whole hrest ih =>
    rcases List.append_eq_cons_iff.mp hwhole with ⟨rfl, rfl⟩ | ⟨rest, rfl, rfl⟩
    · exact ⟨0, k, s, here, stay hrest, Nat.zero_add k⟩
    · obtain ⟨j, k, u, hu, ht, hn⟩ := ih rfl
      exact ⟨j, k, u, stay hu, ht, hn⟩
  | @up k s whole hrest ih =>
    rcases List.append_eq_cons_iff.mp hwhole with ⟨rfl, rfl⟩ | ⟨rest, rfl, rfl⟩
    · exact ⟨0, k, s, here, up hrest, Nat.zero_add k⟩
    · obtain ⟨j, k, u, hu, ht, hn⟩ := ih rfl
      exact ⟨j, k, u, up hu, ht, hn⟩
  | @down k s name whole hs hat hrest ih =>
    rcases List.append_eq_cons_iff.mp hwhole with ⟨rfl, rfl⟩ | ⟨rest, rfl, rfl⟩
    · exact ⟨0, k, s, here, down hs hat hrest, Nat.zero_add k⟩
    · obtain ⟨j, k, u, hu, ht, hn⟩ := ih rfl
      exact ⟨j, k, u, down hs hat hu, ht, hn⟩
  | @link k s name target whole hs hat hrest ih =>
    rcases List.append_eq_cons_iff.mp hwhole with ⟨rfl, rfl⟩ | ⟨rest, rfl, rfl⟩
    · exact ⟨0, k + 1, s, here, link hs hat hrest, Nat.zero_add _⟩
    · obtain ⟨j, k, u, hu, ht, hn⟩ := ih (List.append_assoc _ _ _)
      exact ⟨j + 1, k, u, link hs hat hu, ht, by omega⟩

/-- A last step that stays changes nothing. -/
theorem concat_stay_iff : d.Comes t [] k s (steps ++ [.stay]) ↔ d.Comes t [] k s steps := by
  refine ⟨fun h => ?_, fun h => (h.append [.stay]).trans (.stay .here)⟩
  obtain ⟨i, j, u, hu, hstay, rfl⟩ := h.split
  cases hstay with
  | stay hhere =>
    cases hhere
    exact hu

/-- From a spot that is there a walk comes only to spots that are there. -/
theorem gone_eq_zero (h : d.Comes t left k s steps) (hs : s.gone = 0) : t.gone = 0 := by
  induction h with
  | here => exact hs
  | stay _ ih => exact ih hs
  | up _ ih => exact ih (by simp [Spot.up, hs])
  | down _ _ _ ih => exact ih rfl
  | @link k s name target steps _ _ _ ih =>
    exact ih (startOf_cases (motive := fun t => t.gone = 0) rfl hs target)

/-- A walk goes on from where its first part leads, with as many links less to follow. -/
theorem follow_append (h : d.Comes t [] k s steps) (hmore : more = [] → f = true) (m : Nat) :
    d.follow f (k + m) s (steps ++ more) = d.follow f m t more := by
  induction h with
  | here => rw [Nat.zero_add, List.nil_append]
  | stay _ ih => rw [List.cons_append, follow_stay, ih]
  | up _ ih => rw [List.cons_append, follow_up, ih]
  | down hs hat _ ih =>
    rw [List.cons_append, follow_down hs]
    simp only [hat]
    exact ih
  | @link k s name target steps hs hat _ ih =>
    -- the link is the last step only where links at the end are followed
    have hfollowed : ¬ (steps ++ more = [] ∧ f = false) := by
      rintro ⟨hnil, hf⟩
      rw [hmore (List.append_eq_nil_iff.mp hnil).2] at hf
      cases hf
    rw [List.cons_append, follow_down hs, Nat.add_right_comm]
    simp only [hat, if_neg hfollowed]
    rw [← List.append_assoc, ih]

end Comes

/-- What a walk arrives at: a directory, something else that stands under the last name, or the
place of the last name when nothing stands there. -/
inductive Arrives (d : Disk) (k : Nat) (s : Spot) (steps : List Step) : Arrival → Prop
  | directory {t : Spot} : d.Comes t [] k s steps → Arrives d k s steps (.found t .directory)
  | entry {t : Spot} {name : List Char} {node : Node} :
      d.Comes t [.down name] k s steps → t.Admits name → d.at? t name = some node →
      node ≠ .directory → Arrives d k s steps (.found (t.below name) node)
  | vacant {t : Spot} {name : List Char} :
      d.Comes t [.down name] k s steps → t.Admits name → d.at? t name = none →
      Arrives d k s steps (.vacant t name)

/-- What a walk arrives at from where it has come to, it arrives at from its start. -/
theorem Arrives.of_comes {a : Arrival} (h : d.Comes t left j s steps) (ha : d.Arrives k t left a) :
    d.Arrives (j + k) s steps a := by
  cases ha with
  | directory hu => exact .directory (h.trans hu)
  | entry hu hadmits hat hnode => exact .entry (h.trans hu) hadmits hat hnode
  | vacant hu hadmits hat => exact .vacant (h.trans hu) hadmits hat

/-- Whatever a walk arrives at, it arrives at by the rules. -/
theorem arrives_of_follow {a : Arrival} (h : d.follow f n s steps = .ok a) :
    ∃ k ≤ n, d.Arrives k s steps a := by
  -- one rule before a walk that goes by the rules
  have hbefore : ∀ {j s steps t left n}, d.Comes t left j s steps →
      (∃ k ≤ n, d.Arrives k t left a) → ∃ k ≤ j + n, d.Arrives k s steps a := by
    rintro j s steps t left n hfirst ⟨k, hk, ha⟩
    exact ⟨j + k, Nat.add_le_add_left hk j, .of_comes hfirst ha⟩
  induction n, s, steps using walk_induction with
  | nil n s =>
    rw [follow_nil] at h
    cases h
    exact ⟨0, Nat.zero_le n, .directory .here⟩
  | stay n s steps ih =>
    rw [follow_stay] at h
    simpa using hbefore (.stay .here) (ih h)
  | up n s steps ih =>
    rw [follow_up] at h
    simpa using hbefore (.up .here) (ih h)
  | down n s name steps ihdirectory ihlink =>
    by_cases hadmits : s.Admits name
    · rw [follow_down hadmits] at h
      cases hat : d.at? s name with
      | none =>
        simp only [hat] at h
        split at h
        next hlast =>
          cases h
          subst hlast
          exact ⟨0, Nat.zero_le n, .vacant .here hadmits hat⟩
        next => cases h
      | some node =>
        cases node with
        | directory =>
          simp only [hat] at h
          simpa using hbefore (.down hadmits hat .here) (ihdirectory h)
        | file bytes =>
          simp only [hat] at h
          split at h
          next hlast =>
            cases h
            subst hlast
            exact ⟨0, Nat.zero_le n, .entry .here hadmits hat (by simp)⟩
          next => cases h
        | link target =>
          simp only [hat] at h
          split at h
          next hlast =>
            cases h
            obtain ⟨rfl, -⟩ := hlast
            exact ⟨0, Nat.zero_le n, .entry .here hadmits hat (by simp)⟩
          next =>
            cases n with
            | zero => cases h
            | succ m =>
              rw [Nat.add_comm m 1]
              exact hbefore (.link hadmits hat .here) (ihlink m target rfl h)
    · rw [follow_down_of_not_admits hadmits] at h
      cases h

/-- A walk that comes to a directory comes there by the rules. -/
theorem comes_of_follow (h : d.follow f n s steps = .ok (.found t .directory)) :
    ∃ k ≤ n, d.Comes t [] k s steps := by
  obtain ⟨k, hk, ha⟩ := arrives_of_follow h
  cases ha with
  | directory ht => exact ⟨k, hk, ht⟩
  | entry _ _ _ hnode => exact absurd rfl hnode

/-- With more links to follow, a walk that was not stopped for their number goes the same way. -/
theorem follow_mono (h : d.follow f n s steps ≠ .error .tooManyLinks) (hle : n ≤ m) :
    d.follow f m s steps = d.follow f n s steps :=
  followLegs_mono h hle

end Disk

end NameResolution
