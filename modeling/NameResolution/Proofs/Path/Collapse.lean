import Mathlib.Data.List.Induction
import NameResolution.Proofs.Path.Steps

/-!
# Normal forms of paths

`Component.collapse` folds components over a stack. Collapsing a part of a list
beforehand changes nothing (`foldl_collapse`), which is the whole algebra of
normal forms: normalising twice is normalising once (`normalise_normalise`), and
a path may be normalised before it is joined (`anchor_normalise`). Both need that
the normal form of a path has as its steps what the fold left
(`steps_normalise`).
-/

namespace NameResolution

namespace Component

/-- Folding what is left of a list does what folding the list does, over any stack. The
induction is on the list from its end: the last component either stays on top of what is left, or
takes the name there off. -/
theorem foldl_collapse (cs s : List Component) :
    (collapse cs).foldl stack s = cs.foldl stack s := by
  induction cs using List.reverseRecOn with
  | nil => rfl
  | append_singleton cs c ih =>
    have hlast : collapse (cs ++ [c]) = (stack (cs.foldl stack []) c).reverse := by
      rw [collapse, List.foldl_append]
      rfl
    have hih : (cs.foldl stack []).reverse.foldl stack s = cs.foldl stack s := ih
    rw [hlast, List.foldl_append, ← hih]
    generalize cs.foldl stack [] = kept
    cases c with
    | current => rfl
    | root => simp [stack]
    | name t => simp [stack]
    | parent =>
      match kept with
      | [] => rfl
      | .root :: below => simp [stack]
      | .current :: below => simp [stack]
      | .parent :: below => simp [stack]
      | .name t :: below => simp [stack]

/-- Collapsing is done once and for all. -/
theorem collapse_collapse (cs : List Component) : collapse (collapse cs) = collapse cs := by
  rw [collapse, foldl_collapse]
  rfl

/-- Either part of a list may be collapsed beforehand. -/
theorem collapse_append (a b : List Component) :
    collapse (collapse a ++ collapse b) = collapse (a ++ b) := by
  rw [collapse, List.foldl_append, foldl_collapse, foldl_collapse, ← List.foldl_append]
  rfl

/-- What is left over a stack of steps above a bottom that nothing takes off. -/
theorem foldl_stack_isStep {bottom : List Component} (hbottom : bottom = [] ∨ bottom = [.root]) :
    ∀ (cs kept : List Component), (∀ c ∈ cs, c.IsStep) → (∀ c ∈ kept, c.IsStep) →
      ∃ left, cs.foldl stack (kept ++ bottom) = left ++ bottom ∧
        ∀ c ∈ left, c.IsStep ∧ (c ∈ cs ∨ c ∈ kept)
  | [], kept, _, hkept => ⟨kept, rfl, fun c hc => ⟨hkept c hc, .inr hc⟩⟩
  | c :: cs, kept, hcs, hkept => by
    have hc := hcs c List.mem_cons_self
    have hrest : ∀ x ∈ cs, x.IsStep := fun x hx => hcs x (List.mem_cons_of_mem _ hx)
    -- one step leads to a stack of the same shape, with nothing new on it but the step
    have hstep : ∃ kept', stack (kept ++ bottom) c = kept' ++ bottom ∧
        ∀ x ∈ kept', x.IsStep ∧ (x = c ∨ x ∈ kept) := by
      have hpush : ∀ x ∈ c :: kept, x.IsStep ∧ (x = c ∨ x ∈ kept) := by
        intro x hx
        rcases List.mem_cons.mp hx with rfl | hx
        · exact ⟨hc, .inl rfl⟩
        · exact ⟨hkept x hx, .inr hx⟩
      cases c with
      | root => exact hc.elim
      | current => exact hc.elim
      | name t => exact ⟨.name t :: kept, by simp [stack], hpush⟩
      | parent =>
        match kept, hkept with
        | [], _ =>
          rcases hbottom with rfl | rfl
          · exact ⟨[.parent], rfl, hpush⟩
          · exact ⟨[], rfl, by simp⟩
        | .name t :: below, hkept =>
          exact ⟨below, rfl, fun x hx =>
            ⟨hkept x (List.mem_cons_of_mem _ hx), .inr (List.mem_cons_of_mem _ hx)⟩⟩
        | .parent :: below, _ => exact ⟨.parent :: .parent :: below, rfl, hpush⟩
        | .root :: below, hkept => exact (hkept .root List.mem_cons_self).elim
        | .current :: below, hkept => exact (hkept .current List.mem_cons_self).elim
    obtain ⟨kept', hstack, hkept'⟩ := hstep
    obtain ⟨left, hleft, hmem⟩ :=
      foldl_stack_isStep hbottom cs kept' hrest fun x hx => (hkept' x hx).1
    refine ⟨left, by rw [List.foldl_cons, hstack, hleft], fun x hx => ⟨(hmem x hx).1, ?_⟩⟩
    rcases (hmem x hx).2 with h | h
    · exact .inl (List.mem_cons_of_mem _ h)
    · rcases (hkept' x h).2 with rfl | h
      · exact .inl List.mem_cons_self
      · exact .inr h

end Component

namespace Path

open Component (collapse stack)

/-- A dot at the start does not matter. -/
theorem collapse_components (p : Path) : collapse p.components = collapse p.steps := by
  unfold components steps rootStep isAbsolute
  split
  next rest h =>
    rw [h, ← List.nil_append ('/' :: rest), componentsOf_append]
    rfl
  next h =>
    rw [h]
    rfl
  next rest h =>
    -- the piece `.` means nothing as a step
    have hdot : componentsOf ('.' :: '/' :: rest) = componentsOf rest :=
      componentsOf_append ['.'] rest
    rw [h, hdot]
    rfl
  next hroot _ _ =>
    have hrel : (p.spelling.head? == some '/') = false := by
      cases h : p.spelling with
      | nil => rfl
      | cons c text =>
        have hc : c ≠ '/' := fun he => hroot text (by rw [h, he])
        simpa using hc
    rw [hrel]
    rfl

/-- The normal form is written of what is left of the steps. -/
theorem normalise_eq (p : Path) : p.normalise = ofComponents (collapse p.steps) := by
  rw [normalise, collapse_components]

/-- What is left of a path's steps: its root, and steps of the path above it. -/
theorem collapse_steps (p : Path) :
    ∃ left, collapse p.steps = p.rootStep ++ left ∧
      ∀ c ∈ left, c.IsStep ∧ c ∈ componentsOf p.spelling := by
  have hroot := p.rootStep_cases
  obtain ⟨left, hleft, hmem⟩ := Component.foldl_stack_isStep hroot (componentsOf p.spelling) []
    (fun c hc => isStep_of_mem_componentsOf hc) (by simp)
  -- the root goes to the bottom of the stack, and the steps are read above it
  have hstart : p.rootStep.foldl stack [] = p.rootStep := by
    rcases hroot with h | h <;> rw [h] <;> rfl
  refine ⟨left.reverse, ?_, fun c hc => ?_⟩
  · rw [collapse, steps, List.foldl_append, hstart, ← List.nil_append p.rootStep, hleft,
      List.reverse_append, List.nil_append]
    rcases hroot with h | h <;> rw [h] <;> rfl
  · obtain ⟨hstep, hin⟩ := hmem c (List.mem_reverse.mp hc)
    exact ⟨hstep, hin.resolve_right (by simp)⟩

/-- The normal form is spelled by the root, if there is one, and steps of the path behind it. -/
theorem normalise_spelling (p : Path) :
    ∃ left, collapse p.steps = p.rootStep ++ left ∧
      (∀ c ∈ left, c.IsStep ∧ c ∈ componentsOf p.spelling) ∧
      p.normalise.spelling = if p.isAbsolute then '/' :: slashed left else slashed left := by
  obtain ⟨left, hleft, hmem⟩ := p.collapse_steps
  refine ⟨left, hleft, hmem, ?_⟩
  rw [normalise_eq, hleft, rootStep]
  by_cases habs : p.isAbsolute = true
  · rw [if_pos habs, if_pos habs]
    rfl
  · rw [if_neg habs, if_neg habs, List.nil_append, ofComponents_steps fun c hc => (hmem c hc).1]

/-- The normal form is absolute just if the path is. -/
theorem isAbsolute_normalise (p : Path) : p.normalise.isAbsolute = p.isAbsolute := by
  obtain ⟨left, -, hmem, hspell⟩ := p.normalise_spelling
  rw [isAbsolute, hspell]
  by_cases habs : p.isAbsolute = true
  · rw [if_pos habs, habs]
    rfl
  · rw [if_neg habs, Bool.eq_false_iff.mpr habs, beq_eq_false_iff_ne]
    exact head?_slashed_ne fun c hc => (hmem c hc).1

/-- The normal form has the steps that are left of the path's. -/
theorem steps_normalise (p : Path) : p.normalise.steps = collapse p.steps := by
  obtain ⟨left, hleft, hmem, hspell⟩ := p.normalise_spelling
  have hread : componentsOf (slashed left) = left := componentsOf_slashed fun c hc => (hmem c hc).1
  rw [steps, hleft, hspell, rootStep, isAbsolute_normalise, ← rootStep]
  split
  next =>
    rw [← List.nil_append ('/' :: slashed left), componentsOf_append, hread]
    rfl
  next => rw [hread]

/-- A normal form is its own normal form. -/
theorem normalise_normalise (p : Path) : p.normalise.normalise = p.normalise := by
  rw [normalise_eq p.normalise, steps_normalise, Component.collapse_collapse, ← normalise_eq]

/-- Both parts of a path may be normalised before they are joined. -/
theorem normalise_join (base tail : Path) :
    (base.normalise.join tail.normalise).normalise = (base.join tail).normalise := by
  by_cases habs : tail.isAbsolute = true
  · have habs' : tail.normalise.isAbsolute = true := by rw [isAbsolute_normalise, habs]
    rw [join_of_isAbsolute habs, join_of_isAbsolute habs', normalise_normalise]
  · have hrel : tail.isAbsolute = false := Bool.eq_false_iff.mpr habs
    have hrel' : tail.normalise.isAbsolute = false := by rw [isAbsolute_normalise, hrel]
    rw [normalise_eq (base.join _), normalise_eq (base.normalise.join _), steps_join hrel,
      steps_join hrel', steps_normalise, steps_normalise, Component.collapse_append]

/-- What is seen from a directory may be normalised beforehand. -/
theorem anchor_normalise (base tail : Path) : base.anchor tail.normalise = base.anchor tail := by
  rw [anchor, anchor, ← normalise_join base tail, ← normalise_join base, normalise_normalise]

/-- A directory may be normalised before anything is seen from it. -/
theorem normalise_anchor (base tail : Path) : base.normalise.anchor tail = base.anchor tail := by
  rw [anchor, anchor, ← normalise_join base, ← normalise_join base.normalise, normalise_normalise]

/-- The normal form depends on the components alone. -/
theorem normalise_congr {p q : Path} (h : p.same q = true) : p.normalise = q.normalise := by
  rw [normalise, normalise, beq_iff_eq.mp h]

/-- Normal forms with the same components are spelled alike. -/
theorem normalise_eq_of_same {p q : Path} (h : p.normalise.same q.normalise = true) :
    p.normalise = q.normalise := by
  rw [← normalise_normalise p, normalise_congr h, normalise_normalise]

theorem isAbsolute_join {base : Path} (h : base.isAbsolute = true) (tail : Path) :
    (base.join tail).isAbsolute = true := by
  rw [join]
  split
  next habs => exact habs
  next =>
    unfold isAbsolute at h ⊢
    rw [beq_iff_eq] at h ⊢
    obtain ⟨text, htext⟩ := List.head?_eq_some_iff.mp h
    unfold opened
    split
    next => simp [htext]
    next => simp [htext]

/-- Joining brings in no character but a slash. -/
theorem mem_join_spelling {base tail : Path} {x : Char} (hx : x ∈ (base.join tail).spelling) :
    x = '/' ∨ x ∈ base.spelling ∨ x ∈ tail.spelling := by
  rw [join] at hx
  split at hx
  next => exact .inr (.inr hx)
  next =>
    rcases List.mem_append.mp hx with h | h
    · unfold opened at h
      split at h
      next => exact .inr (.inl h)
      next =>
        rcases List.mem_append.mp h with h | h
        · exact .inr (.inl h)
        · exact .inl (List.mem_singleton.mp h)
    · exact .inr (.inr h)

/-- What an absolute directory sees does not depend on the directory it is seen from. -/
theorem anchor_join {base : Path} (h : base.isAbsolute = true) (tail : Path) :
    base.anchor (base.join tail) = base.anchor tail := by
  rw [anchor, join_of_isAbsolute (isAbsolute_join h tail), anchor]

/-- The normal form has no character that the path has not, but for a slash. -/
theorem mem_normalise_spelling {p : Path} {x : Char} (hx : x ∈ p.normalise.spelling) :
    x = '/' ∨ x ∈ p.spelling := by
  obtain ⟨left, -, hmem, hspell⟩ := p.normalise_spelling
  have hslashed : x ∈ slashed left → x = '/' ∨ x ∈ p.spelling := by
    intro h
    rcases mem_of_mem_slashed h with h | ⟨c, hc, hxc⟩
    · exact .inl h
    · exact .inr (mem_of_mem_text (hmem c hc).2 hxc)
  rw [hspell] at hx
  split at hx
  next =>
    rcases List.mem_cons.mp hx with h | h
    · exact .inl h
    · exact hslashed h
  next => exact hslashed hx

end Path

end NameResolution
