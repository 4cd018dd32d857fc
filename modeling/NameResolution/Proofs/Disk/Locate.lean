import NameResolution.Proofs.Disk.Walk
import NameResolution.Disk.Process

/-!
# Where a path leads

A path that leads to a directory can be walked on from there: what a relative path means
behind it is what a walk from that directory finds (`Comes.locate_join`), with fewer
links to follow if some were used up on the way. In particular, what stands under one
name behind it is what stands under that name in the directory (`LeadsTo.stands_iff`).
-/

namespace NameResolution

/-! ## Texts of paths -/

/-- The bytes of a text are those of its parts. -/
theorem byteLength_append (a b : List Char) :
    byteLength (a ++ b) = byteLength a + byteLength b := by
  have hsum : ∀ text, byteLength text = (text.map Char.utf8Size).sum := by
    intro text
    rw [List.sum_eq_foldl, List.foldl_map]
    rfl
  simp only [hsum, List.map_append, List.sum_append]

/-- A text that is not empty has bytes. -/
theorem byteLength_pos {text : List Char} (h : text ≠ []) : 0 < byteLength text := by
  obtain ⟨c, rest, rfl⟩ := List.exists_cons_of_ne_nil h
  have hparts : byteLength (c :: rest) = byteLength [c] + byteLength rest :=
    byteLength_append [c] rest
  have hchar : byteLength [c] = c.utf8Size := Nat.zero_add _
  have hpos := c.utf8Size_pos
  omega

namespace Step

/-- A slash parts the steps of a text. -/
theorem ofText_append_slash (a b : List Char) : ofText (a ++ '/' :: b) = ofText a ++ ofText b := by
  rw [ofText, slashPieces_append, List.map_append]
  rfl

theorem ofText_ne_nil (text : List Char) : ofText text ≠ [] := by
  obtain ⟨piece, pieces, h⟩ := slashPieces_eq_cons text
  rw [ofText, h]
  exact List.cons_ne_nil _ _

/-- A name is gone down to. -/
theorem ofPiece_name {name : List Char} (h : (Component.name name).IsStep) :
    ofPiece name = .down name := by
  obtain ⟨hne, -, hdot, hparent⟩ := h
  simp [ofPiece, hne, hdot, hparent]

/-- Names written with slashes between them are gone down one after the other. -/
theorem ofText_names {names : List (List Char)} (hne : names ≠ [])
    (h : ∀ name ∈ names, (Component.name name).IsStep) :
    ofText (Path.slashed (names.map .name)) = names.map .down := by
  have hsteps : ∀ x ∈ names.map Component.name, x.IsStep := by
    intro x hx
    obtain ⟨name, hname, rfl⟩ := List.mem_map.mp hx
    exact h name hname
  rw [ofText, Path.slashPieces_slashed (by simpa using hne) hsteps, List.map_map, List.map_map]
  exact List.map_congr_left fun name hname => ofPiece_name (h name hname)

theorem ofText_name {name : List Char} (h : (Component.name name).IsStep) :
    ofText name = [.down name] :=
  ofText_names (List.cons_ne_nil name []) (by simpa using h)

end Step

namespace Disk

variable {d : Disk} {f : Bool} {p c : Path} {s t u : Spot} {name : List Char} {node : Node}

/-- The path leads to the directory at a spot. -/
def LeadsTo (d : Disk) (p : Path) (t : Spot) : Prop := d.locate true p = .ok (.found t .directory)

/-- What stands at the path itself, a link at its end not followed. -/
def Stands (d : Disk) (p : Path) (node : Node) : Prop :=
  ∃ t, d.locate false p = .ok (.found t node)

/-- One thing stands at a path. -/
theorem Stands.unique {other : Node} (h : d.Stands p node) (h' : d.Stands p other) :
    node = other := by
  obtain ⟨t, ht⟩ := h
  obtain ⟨u, hu⟩ := h'
  cases ht.symm.trans hu
  rfl

theorem locate_of_nul (h : '\x00' ∈ p.spelling) : d.locate f p = .error .invalidInput := by
  rw [locate, if_pos h]

/-- Any other path that is not empty is walked along from its start. -/
theorem locate_eq (h : '\x00' ∉ p.spelling) (hne : p.spelling ≠ []) (f : Bool) :
    d.locate f p =
      d.follow f linkLimit (startOf d.workingDirectory p.spelling) (Step.ofText p.spelling) := by
  rw [locate, if_neg h, if_neg hne]

/-- A path that leads somewhere has no NUL and is not empty. -/
theorem locate_ok {a : Arrival} (h : d.locate f p = .ok a) :
    '\x00' ∉ p.spelling ∧ p.spelling ≠ [] := by
  unfold locate at h
  split at h
  next => cases h
  next hnul =>
    split at h
    next => cases h
    next hne => exact ⟨hnul, hne⟩

/-- A path leads to what is come to along its steps. -/
theorem LeadsTo.of_comes {k : Nat}
    (h : d.Comes t [] k (startOf d.workingDirectory p.spelling) (Step.ofText p.spelling))
    (hk : k ≤ linkLimit) (hnul : '\x00' ∉ p.spelling) (hne : p.spelling ≠ []) :
    d.LeadsTo p t := by
  obtain ⟨m, hm⟩ := Nat.exists_eq_add_of_le hk
  have hwalk : d.follow true (k + m) _ (_ ++ []) = d.follow true m t [] :=
    h.follow_append (fun _ => rfl) m
  rw [List.append_nil, follow_nil] at hwalk
  rw [LeadsTo, locate_eq hnul hne, hm, hwalk]

/-- The walk along a path that leads to a directory goes by the rules. -/
theorem LeadsTo.comes (h : d.LeadsTo p t) : ∃ k ≤ linkLimit,
    d.Comes t [] k (startOf d.workingDirectory p.spelling) (Step.ofText p.spelling) := by
  obtain ⟨hnul, hne⟩ := locate_ok h
  rw [LeadsTo, locate_eq hnul hne] at h
  exact comes_of_follow h

/-- A relative path behind another one is walked along after it. -/
theorem ofText_join (hne : c.spelling ≠ []) (hrel : p.isAbsolute = false) :
    ∃ front, Step.ofText (c.join p).spelling = front ++ Step.ofText p.spelling ∧
      ∀ k s t, d.Comes t [] k s (Step.ofText c.spelling) ↔ d.Comes t [] k s front := by
  obtain ⟨front, hopened, hfront⟩ := Path.exists_opened_eq hne
  refine ⟨Step.ofText front, ?_, fun k s t => ?_⟩
  · rw [Path.join_of_relative hrel, hopened, List.append_assoc]
    exact Step.ofText_append_slash front p.spelling
  · rcases hfront with hfront | hfront
    · rw [hfront]
    -- a slash at the end is one more step, which stays
    · have hslash : Step.ofText c.spelling = Step.ofText front ++ [.stay] := by
        rw [hfront, Step.ofText_append_slash]
        rfl
      rw [hslash, Comes.concat_stay_iff]

/-- A joined path starts from where its base starts from. -/
theorem startOf_join (hne : c.spelling ≠ []) (hrel : p.isAbsolute = false) :
    startOf s (c.join p).spelling = startOf s c.spelling := by
  obtain ⟨x, text, hx⟩ := List.exists_cons_of_ne_nil hne
  have hhead : (c.join p).spelling.head? = c.spelling.head? := by
    rw [Path.join_of_relative hrel, Path.opened, hx]
    split <;> rfl
  unfold startOf
  rw [hhead]

/-- A path behind one that leads to a directory is walked from there, and may follow as many links
less as there are on the way. -/
theorem Comes.locate_join {k : Nat}
    (h : d.Comes t [] k (startOf d.workingDirectory c.spelling) (Step.ofText c.spelling))
    (hk : k ≤ linkLimit) (hnul : '\x00' ∉ c.spelling) (hne : c.spelling ≠ []) (f : Bool)
    (hrel : p.isAbsolute = false) (hp : '\x00' ∉ p.spelling) :
    d.locate f (c.join p) = d.follow f (linkLimit - k) t (Step.ofText p.spelling) := by
  obtain ⟨front, hsteps, hfront⟩ := ofText_join (d := d) hne hrel
  rw [hfront] at h
  have hplain : '\x00' ∉ (c.join p).spelling := Path.not_mem_join (by decide) hnul hp
  obtain ⟨m, hm⟩ := Nat.exists_eq_add_of_le hk
  rw [locate_eq hplain (Path.join_spelling_ne_nil hne hrel), startOf_join hne hrel, hsteps, hm,
    Nat.add_sub_cancel_left]
  exact h.follow_append (fun hnil => absurd hnil (Step.ofText_ne_nil _)) m

/-! ## Children on a disk -/

/-- A child of a path that leads to a directory is looked for in that directory. -/
theorem LeadsTo.locate_child (h : d.LeadsTo p t) (hchild : p.IsChild (.name name) c)
    (hnul : '\x00' ∉ c.spelling) :
    ∃ m, ∀ f, d.locate f c = d.follow f m t [.down name] := by
  obtain ⟨hp, hne⟩ := locate_ok h
  obtain ⟨k, hk, hcomes⟩ := h.comes
  have hstep := hchild.isStep hne
  have hname : '\x00' ∉ name := by
    intro hmem
    apply hnul
    rw [hchild.spelled]
    exact Path.mem_join_of_mem_tail hmem
  refine ⟨linkLimit - k, fun f => ?_⟩
  rw [hchild.spelled, hcomes.locate_join hk hp hne f (Path.relative_text hstep) hname,
    Component.text, Step.ofText_name hstep]

/-- What stands at a child is what stands under its name in the directory. -/
theorem LeadsTo.stands_iff (h : d.LeadsTo p t) (hchild : p.IsChild (.name name) c) :
    d.Stands c node ↔ '\x00' ∉ c.spelling ∧ t.Admits name ∧ d.at? t name = some node := by
  by_cases hnul : '\x00' ∈ c.spelling
  · refine ⟨fun ⟨u, hu⟩ => absurd hnul (locate_ok hu).1, fun h => absurd hnul h.1⟩
  · obtain ⟨m, hm⟩ := h.locate_child hchild hnul
    rw [Stands, hm, follow_last_iff]
    exact (and_iff_right hnul).symm

/-- A child leads to a directory if one stands there, or a link that leads to one. -/
theorem LeadsTo.child_leadsTo_iff (h : d.LeadsTo p t) (hchild : p.IsChild (.name name) c) :
    (∃ u, d.LeadsTo c u) ↔
      d.Stands c .directory ∨ (∃ target, d.Stands c (.link target)) ∧ ∃ u, d.LeadsTo c u := by
  by_cases hnul : '\x00' ∈ c.spelling
  · have hnowhere : ∀ {f : Bool} {a : Arrival}, d.locate f c ≠ .ok a :=
      fun ha => (locate_ok ha).1 hnul
    simp [LeadsTo, Stands, hnowhere]
  · obtain ⟨m, hm⟩ := h.locate_child hchild hnul
    have hleads : (∃ u, d.LeadsTo c u) ↔
        ∃ u, d.follow true m t [.down name] = .ok (.found u .directory) := by
      unfold LeadsTo
      rw [hm]
    rw [hleads, follow_directory_iff]
    simp only [h.stands_iff hchild]
    tauto

/-- A path is reached if it leads somewhere and is not too long. -/
theorem reach_eq_ok_iff :
    d.reach p = .ok (t, node) ↔
      byteLength p.spelling < pathLimit ∧ d.locate true p = .ok (.found t node) := by
  have hoccupant : (d.locate true p >>= occupant) = .ok (t, node) ↔
      d.locate true p = .ok (.found t node) := by
    cases d.locate true p with
    | error e => exact ⟨nofun, nofun⟩
    | ok a =>
      cases a with
      | found u stands =>
        show Except.ok (u, stands) = _ ↔ _
        simp
      | vacant u name => exact ⟨nofun, nofun⟩
  unfold reach arrive
  split
  next hlong => exact ⟨nofun, fun h => absurd h.1 (Nat.not_lt.mpr hlong.2)⟩
  next hshort =>
    rw [hoccupant]
    refine ⟨fun h => ⟨?_, h⟩, And.right⟩
    exact Nat.lt_of_not_le fun hlong => hshort ⟨(locate_ok h).1, hlong⟩

/-- There is a directory for a path that leads to one and is not too long. -/
theorem directoryExists_iff :
    d.directoryExists p = true ↔ byteLength p.spelling < pathLimit ∧ ∃ t, d.LeadsTo p t := by
  have hreach : d.directoryExists p = true ↔ ∃ t, d.reach p = .ok (t, .directory) := by
    unfold directoryExists
    split
    next t h => simp [h]
    next h => simpa using fun t => h t
  rw [hreach]
  simp only [reach_eq_ok_iff, LeadsTo]
  exact exists_and_left

end Disk

end NameResolution
