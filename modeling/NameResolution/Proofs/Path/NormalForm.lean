import NameResolution.Proofs.Path.Shape

/-!
# The normal form of a path, and how a growing path reaches it

A path can be normalised without a stack, by writing its components one by one at the end of a
path that starts empty: a name is joined, and `..` takes the last name off again. Each step reads
anew what has been written so far. That this leaves the normal form (`foldl_grow`) rests on
one invariant: what has been written is the plain spelling of what the stack holds.

A normal form is known by what it is read as and how it is spelled (`IsNormal`): names
behind a root, or behind a run of `..`, with single slashes between them and none at the end.
So two normal forms are one place only if they are one text (`normal_form_of_path`).
-/

namespace NameResolution

open Component (stack collapse)

namespace Path

/-! ## A path that grows -/

/-- The path one step up, or the path itself where there is none. -/
def popped (p : Path) : Path := p.parent?.getD p

/-- One component written at the end of a path: `..` takes off a name, is left out at the root and
stays otherwise. -/
def grow (written : Path) : Component → Path
  | .current => written
  | .parent =>
    match written.components.getLast? with
    | some (.name _) => written.popped
    | some .root => written
    | _ => written.join ⟨Component.parent.text⟩
  | c => written.join ⟨c.text⟩

theorem text_ne_nil {c : Component} (h : c.IsStep) : c.text ≠ [] := by
  cases c with
  | root => exact h.elim
  | current => exact h.elim
  | parent => decide
  | name t => exact h.1

/-- A last component is written behind a slash. -/
theorem slashed_concat : ∀ {left : List Component}, left ≠ [] → ∀ c : Component,
    slashed (left ++ [c]) = slashed left ++ '/' :: c.text
  | [d], _, c => rfl
  | d :: e :: left, _, c => by
    have hrest : slashed (e :: left ++ [c]) = slashed (e :: left) ++ '/' :: c.text :=
      slashed_concat (by simp) c
    show d.text ++ '/' :: slashed (e :: left ++ [c]) = d.text ++ '/' :: slashed (e :: left) ++ _
    rw [hrest, List.append_assoc]
    rfl

/-- Nothing empty stands between the slashes of what is written of steps. -/
theorem nil_not_mem_slashPieces {left : List Component} (hne : left ≠ [])
    (h : ∀ c ∈ left, c.IsStep) : [] ∉ slashPieces (slashed left) := by
  rw [slashPieces_slashed hne h]
  intro hmem
  obtain ⟨c, hc, htext⟩ := List.mem_map.mp hmem
  exact text_ne_nil (h c hc) htext

/-- Of steps, something is written. -/
theorem slashed_ne_nil {left : List Component} (hne : left ≠ []) (h : ∀ c ∈ left, c.IsStep) :
    slashed left ≠ [] := by
  intro hnil
  apply nil_not_mem_slashPieces hne h
  rw [hnil]
  exact List.mem_cons_self

/-- What is written of steps does not end in a slash. -/
theorem getLast?_slashed_ne {left : List Component} (h : ∀ c ∈ left, c.IsStep) :
    (slashed left).getLast? ≠ some '/' := by
  intro hlast
  obtain ⟨text, htext⟩ := List.getLast?_eq_some_iff.mp hlast
  have hne : left ≠ [] := by
    rintro rfl
    exact absurd htext (by simp [slashed])
  apply nil_not_mem_slashPieces hne h
  rw [htext, slashPieces_append]
  exact List.mem_append_right _ List.mem_cons_self

/-- Behind an absolute path with steps, a slash is written first. -/
theorem opened_rooted {left : List Component} (hne : left ≠ []) (h : ∀ c ∈ left, c.IsStep) :
    opened ('/' :: slashed left) = '/' :: slashed left ++ ['/'] := by
  have hlast : ('/' :: slashed left).getLast? ≠ some '/' := by
    rw [List.getLast?_cons_of_ne_nil (slashed_ne_nil hne h)]
    exact getLast?_slashed_ne h
  rw [opened, if_neg (not_or.mpr ⟨List.cons_ne_nil _ _, hlast⟩)]

/-- What is written of steps has no slash twice. -/
theorem not_infix_slashed {left : List Component} (h : ∀ c ∈ left, c.IsStep) :
    ¬ ['/', '/'] <:+: slashed left := by
  rintro ⟨before, behind, htext⟩
  have hne : left ≠ [] := by
    rintro rfl
    exact absurd htext (by simp [slashed])
  apply nil_not_mem_slashPieces hne h
  -- between the two slashes there would be an empty piece
  have hsplit : slashed left = before ++ '/' :: ('/' :: behind) := by rw [← htext]; simp
  rw [hsplit, slashPieces_append]
  exact List.mem_append_right _ List.mem_cons_self

/-- A step joined to a plain spelling is written behind it. -/
theorem join_step {bottom left : List Component} (hbottom : bottom = [] ∨ bottom = [.root])
    (hleft : ∀ c ∈ left, c.IsStep) {c : Component} (hc : c.IsStep) :
    (ofComponents (bottom ++ left)).join ⟨c.text⟩ = ofComponents (bottom ++ (left ++ [c])) := by
  have hsteps : ∀ x ∈ left ++ [c], x.IsStep := by
    intro x hx
    rcases List.mem_append.mp hx with hx | hx
    · exact hleft x hx
    · rwa [List.mem_singleton.mp hx]
  have hrelative : (⟨c.text⟩ : Path).isAbsolute = false := by
    rw [isAbsolute, beq_eq_false_iff_ne]
    intro hhead
    exact not_mem_text hc (List.mem_of_mem_head? hhead)
  rw [join, if_neg (by simp [hrelative])]
  -- a slash goes in between unless nothing but the root is written
  by_cases hne : left = []
  · subst hne
    rcases hbottom with rfl | rfl
    · show _ = ofComponents ([] ++ [c])
      rw [ofComponents_steps hsteps]
      rfl
    · rfl
  · have hlast := getLast?_slashed_ne hleft
    have hspelled := slashed_ne_nil hne hleft
    rcases hbottom with rfl | rfl
    · rw [List.nil_append, List.nil_append, ofComponents_steps hleft, ofComponents_steps hsteps,
        slashed_concat hne]
      simp [opened, hspelled, hlast]
    · show (⟨opened ('/' :: slashed left) ++ c.text⟩ : Path) = ⟨'/' :: slashed (left ++ [c])⟩
      rw [slashed_concat hne, opened_rooted hne hleft]
      simp

/-- A name that was written last is taken off again. -/
theorem popped_name {bottom left : List Component} (hbottom : bottom = [] ∨ bottom = [.root])
    {t : List Char} (h : ∀ c ∈ left ++ [.name t], c.IsStep) :
    (ofComponents (bottom ++ (left ++ [.name t]))).popped = ofComponents (bottom ++ left) := by
  rw [popped, parent?, components_ofComponents hbottom h, ← List.append_assoc]
  simp

/-- Writing one more component does to the path what reading it does to the stack. -/
theorem grow_ofComponents {bottom kept : List Component} (hbottom : bottom = [] ∨ bottom = [.root])
    (hkept : ∀ x ∈ kept, x.IsStep) {c : Component} (hc : c.IsStep ∨ c = .current) :
    ∃ kept' : List Component, stack (kept ++ bottom) c = kept' ++ bottom ∧
      (∀ x ∈ kept', x.IsStep) ∧
      (ofComponents (bottom ++ kept.reverse)).grow c = ofComponents (bottom ++ kept'.reverse) := by
  have hwritten : ∀ x ∈ kept.reverse, x.IsStep := fun x hx => hkept x (List.mem_reverse.mp hx)
  have hread := components_ofComponents hbottom hwritten
  -- what is joined comes on top of the stack
  have hpush : c.IsStep → (∀ x ∈ c :: kept, x.IsStep) ∧
      (ofComponents (bottom ++ kept.reverse)).join ⟨c.text⟩ =
        ofComponents (bottom ++ (c :: kept).reverse) := by
    intro hstep
    refine ⟨fun x hx => ?_, ?_⟩
    · rcases List.mem_cons.mp hx with rfl | hx
      · exact hstep
      · exact hkept x hx
    · rw [join_step hbottom hwritten hstep, List.reverse_cons]
  cases c with
  | root => exact absurd hc (by simp [Component.IsStep])
  | current =>
    refine ⟨kept, ?_, hkept, rfl⟩
    cases kept ++ bottom <;> rfl
  | name t =>
    obtain ⟨hsteps, hjoin⟩ := hpush (hc.resolve_right (by simp))
    exact ⟨.name t :: kept, Component.stack_name _ t, hsteps, hjoin⟩
  | parent =>
    obtain ⟨hsteps, hjoin⟩ := hpush trivial
    rw [grow, hread]
    match kept with
    | [] =>
      rcases hbottom with rfl | rfl
      · exact ⟨[.parent], rfl, hsteps, hjoin⟩
      · exact ⟨[], rfl, by simp, rfl⟩
    | .parent :: below =>
      refine ⟨.parent :: .parent :: below, rfl, hsteps, ?_⟩
      simpa using hjoin
    | .name t :: below =>
      refine ⟨below, rfl, fun x hx => hkept x (List.mem_cons_of_mem _ hx), ?_⟩
      rw [List.reverse_cons] at hwritten ⊢
      simpa using popped_name hbottom hwritten
    | .root :: below => exact (hkept .root List.mem_cons_self).elim
    | .current :: below => exact (hkept .current List.mem_cons_self).elim

/-- What a path has grown to is the plain spelling of what the stack holds. -/
theorem foldl_grow {bottom : List Component} (hbottom : bottom = [] ∨ bottom = [.root]) :
    ∀ (cs kept : List Component), (∀ c ∈ cs, c.IsStep ∨ c = .current) →
      (∀ x ∈ kept, x.IsStep) →
      cs.foldl grow (ofComponents (bottom ++ kept.reverse)) =
        ofComponents (cs.foldl stack (kept ++ bottom)).reverse
  | [], kept, _, _ => by
    rcases hbottom with rfl | rfl <;> simp
  | c :: cs, kept, hcs, hkept => by
    obtain ⟨kept', hstack, hkept', hgrow⟩ :=
      grow_ofComponents hbottom hkept (hcs c List.mem_cons_self)
    rw [List.foldl_cons, List.foldl_cons, hstack, hgrow]
    exact foldl_grow hbottom cs kept' (fun x hx => hcs x (List.mem_cons_of_mem _ hx)) hkept'

/-- A path is read as its root, if it has one, and steps, with perhaps a `.` in front of them. -/
theorem components_eq (p : Path) :
    ∃ cs, p.components = p.rootStep ++ cs ∧ ∀ c ∈ cs, c.IsStep ∨ c = .current := by
  have hsteps : ∀ text, ∀ c ∈ componentsOf text, c.IsStep ∨ c = .current :=
    fun text c hc => .inl (isStep_of_mem_componentsOf hc)
  unfold components rootStep isAbsolute
  split
  next rest h => exact ⟨componentsOf rest, by rw [h]; rfl, hsteps rest⟩
  next h => exact ⟨[.current], by rw [h]; rfl, by simp⟩
  next rest h =>
    refine ⟨.current :: componentsOf rest, by rw [h]; rfl, fun c hc => ?_⟩
    rcases List.mem_cons.mp hc with rfl | hc
    · exact .inr rfl
    · exact hsteps rest c hc
  next hroot _ _ =>
    have hrelative : (p.spelling.head? == some '/') = false := by
      rw [beq_eq_false_iff_ne]
      intro hhead
      obtain ⟨rest, hrest⟩ := List.head?_eq_some_iff.mp hhead
      exact hroot rest hrest
    rw [hrelative]
    exact ⟨componentsOf p.spelling, rfl, hsteps p.spelling⟩

/-- A path that grows by the components of a path becomes its normal form. -/
theorem foldl_grow_components (p : Path) : p.components.foldl grow ⟨[]⟩ = p.normalise := by
  obtain ⟨cs, hcs, hsteps⟩ := p.components_eq
  have hgrow := foldl_grow p.rootStep_cases cs [] hsteps (by simp)
  rw [normalise, collapse, hcs, List.foldl_append, List.foldl_append]
  rcases p.rootStep_cases with hroot | hroot
  · rw [hroot] at hgrow ⊢
    exact hgrow
  · rw [hroot] at hgrow ⊢
    exact hgrow

/-! ## Normal forms -/

/-- A path in normal form. -/
structure IsNormal (p : Path) : Prop where
  /-- There are names only, behind the root or behind a run of `..`. -/
  shape : ∃ (up : ℕ) (names : List (List Char)),
    (∀ t ∈ names, (Component.name t).IsStep) ∧
      p.components =
        (if p.isAbsolute then [.root] else List.replicate up .parent) ++ names.map .name
  /-- No two slashes stand side by side. -/
  single : ¬ ['/', '/'] <:+: p.spelling
  /-- Only the root alone ends in a slash. -/
  ending : p.spelling.getLast? = some '/' → p.spelling = ['/']

/-- Normal forms have the shape of normal forms. -/
theorem isNormal_normalise (p : Path) : p.normalise.IsNormal := by
  obtain ⟨left, hleft, hmem, hspell⟩ := p.normalise_spelling
  have hsteps : ∀ c ∈ left, c.IsStep := fun c hc => (hmem c hc).1
  refine ⟨?_, ?_, ?_⟩
  · rw [components_normalise, isAbsolute_normalise]
    have hnames : ∀ names : List (List Char), names.map .name ⊆ left →
        ∀ t ∈ names, (Component.name t).IsStep :=
      fun names hsub t ht => hsteps _ (hsub (List.mem_map_of_mem ht))
    by_cases habs : p.isAbsolute = true
    · obtain ⟨names, hcollapse⟩ := collapse_of_isAbsolute habs
      have hbehind : left = names.map .name := by
        rw [hleft, rootStep, if_pos habs] at hcollapse
        exact (List.cons.inj hcollapse).2
      refine ⟨0, names, hnames names (by rw [hbehind]; exact fun _ h => h), ?_⟩
      rw [if_pos habs]
      exact hcollapse
    · have hroot : p.rootStep = [] := by rw [rootStep, if_neg habs]
      have hall : ∀ c ∈ p.steps, c.IsStep := by
        intro c hc
        rw [steps, hroot, List.nil_append] at hc
        exact isStep_of_mem_componentsOf hc
      obtain ⟨up, names, hcollapse⟩ := Component.collapse_of_isStep hall
      refine ⟨up, names, hnames names ?_, by rw [if_neg habs]; exact hcollapse⟩
      rw [hleft, hroot, List.nil_append] at hcollapse
      rw [hcollapse]
      exact List.subset_append_right _ _
  · rw [hspell]
    split
    next =>
      intro hinfix
      rcases List.infix_cons_iff.mp hinfix with hfront | hinfix
      · obtain ⟨rest, hrest⟩ := (List.cons_prefix_cons.mp hfront).2
        exact head?_slashed_ne hsteps (by rw [← hrest]; rfl)
      · exact not_infix_slashed hsteps hinfix
    next => exact not_infix_slashed hsteps
  · rw [hspell]
    split
    next =>
      intro hlast
      cases hslashed : slashed left with
      | nil => rfl
      | cons x rest =>
        rw [hslashed, List.getLast?_cons_cons, ← hslashed] at hlast
        exact absurd hlast (getLast?_slashed_ne hsteps)
    next => exact fun hlast => absurd hlast (getLast?_slashed_ne hsteps)

end Path

/-- **Every path has one normal form.** It is rooted exactly if the path is, has the shape and the
spelling of normal forms, is read as what a stack leaves of the path's components, and is reached by
writing these one by one at the end of a path that grows. Normalising once more leaves it as it is,
and two normal forms are the same path exactly if they are the same text. -/
theorem normal_form_of_path (p : Path) :
    p.normalise.isAbsolute = p.isAbsolute ∧ p.normalise.IsNormal ∧
      p.normalise.components = collapse p.components ∧
      p.components.foldl Path.grow ⟨[]⟩ = p.normalise ∧
      p.normalise.normalise = p.normalise ∧
      ∀ q : Path, p.normalise.same q.normalise = true ↔
        p.normalise.spelling = q.normalise.spelling := by
  have hread : p.normalise.components = collapse p.components := by
    rw [Path.components_normalise, Path.collapse_components]
  refine ⟨p.isAbsolute_normalise, p.isNormal_normalise, hread, p.foldl_grow_components,
    p.normalise_normalise, fun q => ⟨fun hsame => ?_, fun htext => ?_⟩⟩
  · rw [Path.normalise_eq_of_same hsame]
  · have heq : p.normalise = q.normalise := congrArg Path.mk htext
    rw [heq]
    exact beq_self_eq_true _

end NameResolution
