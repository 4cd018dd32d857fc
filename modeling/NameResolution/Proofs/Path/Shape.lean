import NameResolution.Proofs.Path.Collapse

/-!
# The shape of normal forms

What the fold over a stack leaves is `..` first, or the root, and names behind it
(`foldl_stack_over`). A path with a root is left with names only
(`collapse_of_isAbsolute`), a list of steps without one with a run of `..` and names
(`collapse_of_isStep`). Names alone are left as they are, and written with slashes between
them they are the pieces of the text (`slashPieces_slashed`, `slashed_slashPieces`).
-/

namespace NameResolution

namespace Component

/-! ## Names over a bottom -/

theorem stack_name (kept : List Component) (t : List Char) :
    stack kept (.name t) = .name t :: kept := by simp [stack]

/-- Names are put on top of whatever is there. -/
theorem foldl_stack_names : ∀ (names : List (List Char)) (kept : List Component),
    (names.map .name).foldl stack kept = (names.map .name).reverse ++ kept
  | [], _ => rfl
  | t :: names, kept => by
    rw [List.map_cons, List.foldl_cons, stack_name, foldl_stack_names names]
    simp

/-- Steps over names over a bottom leave names over a bottom, if `..` at the bottom leaves one. -/
theorem foldl_stack_over {Bottom : List Component → Prop}
    (hbottom : ∀ bottom, Bottom bottom → Bottom (stack bottom .parent)) :
    ∀ (cs : List Component) (names : List (List Char)) (bottom : List Component),
      (∀ c ∈ cs, c.IsStep) → Bottom bottom →
      ∃ (names' : List (List Char)) (bottom' : List Component),
        cs.foldl stack (names.map .name ++ bottom) = names'.map .name ++ bottom' ∧ Bottom bottom'
  | [], names, bottom, _, hb => ⟨names, bottom, rfl, hb⟩
  | c :: cs, names, bottom, hcs, hb => by
    have hc := hcs c List.mem_cons_self
    have hrest : ∀ x ∈ cs, x.IsStep := fun x hx => hcs x (List.mem_cons_of_mem _ hx)
    rw [List.foldl_cons]
    cases c with
    | root => exact hc.elim
    | current => exact hc.elim
    | name t =>
      rw [stack_name]
      exact foldl_stack_over hbottom cs (t :: names) bottom hrest hb
    | parent =>
      cases names with
      | nil => exact foldl_stack_over hbottom cs [] _ hrest (hbottom bottom hb)
      | cons t names => exact foldl_stack_over hbottom cs names bottom hrest hb

/-- What is left of steps: a run of `..`, and names behind it. -/
theorem collapse_of_isStep {cs : List Component} (h : ∀ c ∈ cs, c.IsStep) :
    ∃ (up : ℕ) (names : List (List Char)),
      collapse cs = List.replicate up .parent ++ names.map .name := by
  have hbottom : ∀ bottom, (∃ up, bottom = List.replicate up parent) →
      ∃ up, stack bottom .parent = List.replicate up parent := by
    rintro _ ⟨up, rfl⟩
    refine ⟨up + 1, ?_⟩
    cases up <;> rfl
  obtain ⟨names, _, hleft, up, rfl⟩ := foldl_stack_over hbottom cs [] [] h ⟨0, rfl⟩
  refine ⟨up, names.reverse, ?_⟩
  rw [List.map_nil, List.nil_append] at hleft
  rw [collapse, hleft]
  simp

end Component

namespace Path

open Component (collapse stack)

/-- What is left of a path with a root: the root, and names behind it. -/
theorem collapse_of_isAbsolute {p : Path} (h : p.isAbsolute = true) :
    ∃ names : List (List Char), collapse p.steps = .root :: names.map .name := by
  have hbottom : ∀ bottom, bottom = [.root] → stack bottom .parent = [.root] := by
    rintro _ rfl
    rfl
  obtain ⟨names, _, hleft, rfl⟩ := Component.foldl_stack_over hbottom
    (componentsOf p.spelling) [] [.root] (fun c hc => isStep_of_mem_componentsOf hc) rfl
  refine ⟨names.reverse, ?_⟩
  have hstart : p.steps.foldl stack [] = (componentsOf p.spelling).foldl stack [.root] := by
    rw [steps, rootStep, if_pos h, List.foldl_append]
    rfl
  rw [List.map_nil, List.nil_append] at hleft
  rw [collapse, hstart, hleft]
  simp

/-! ## Names and pieces -/

/-- No slash is written of a step. -/
theorem not_mem_text {c : Component} (h : c.IsStep) : '/' ∉ c.text := by
  cases c with
  | root => exact h.elim
  | current => exact h.elim
  | parent => decide
  | name t => exact h.2.1

/-- The pieces of what is written of steps are their texts. -/
theorem slashPieces_slashed : ∀ {cs : List Component}, cs ≠ [] → (∀ c ∈ cs, c.IsStep) →
    slashPieces (slashed cs) = cs.map Component.text
  | [c], _, h => slashPieces_of_not_mem (not_mem_text (h c List.mem_cons_self))
  | c :: d :: cs, _, h => by
    have hfirst := slashPieces_of_not_mem (not_mem_text (h c List.mem_cons_self))
    rw [slashed, slashPieces_append, hfirst,
      slashPieces_slashed (by simp) fun x hx => h x (List.mem_cons_of_mem _ hx)]
    · rfl
    · simp

/-- Steps written with slashes between them are the components of what is written. -/
theorem components_slashed {left : List Component} (h : ∀ c ∈ left, c.IsStep) :
    (⟨slashed left⟩ : Path).components = left := by
  -- no step is written as a single dot, and so what is written does not start with one
  have hdot : ∀ pieces, slashPieces (slashed left) ≠ ['.'] :: pieces := by
    intro pieces hpieces
    cases left with
    | nil => cases hpieces
    | cons c left =>
      rw [slashPieces_slashed (by simp) h, List.map_cons, List.cons.injEq] at hpieces
      have hc := h c List.mem_cons_self
      cases c with
      | root => exact hc
      | current => exact hc
      | parent => exact absurd hpieces.1 (by decide)
      | name t => exact hc.2.2.1 hpieces.1
  simp only [components]
  split
  next rest hslash => exact absurd (by rw [hslash]; rfl) (head?_slashed_ne h)
  next hsingle => exact absurd (by rw [hsingle]; rfl) (hdot [])
  next rest hfirst =>
    refine absurd ?_ (hdot (slashPieces rest))
    rw [hfirst]
    exact slashPieces_append ['.'] rest
  next => exact componentsOf_slashed h

/-- Steps, perhaps behind a root, are read off their plain spelling. -/
theorem components_ofComponents {bottom left : List Component}
    (hbottom : bottom = [] ∨ bottom = [.root]) (h : ∀ c ∈ left, c.IsStep) :
    (ofComponents (bottom ++ left)).components = bottom ++ left := by
  rcases hbottom with rfl | rfl
  · rw [List.nil_append, ofComponents_steps h, components_slashed h]
  · exact congrArg (Component.root :: ·) (componentsOf_slashed h)

/-- The components of a normal form are what the fold left. -/
theorem components_normalise (p : Path) : p.normalise.components = collapse p.steps := by
  obtain ⟨left, hleft, hmem⟩ := p.collapse_steps
  rw [normalise_eq, hleft]
  exact components_ofComponents p.rootStep_cases fun c hc => (hmem c hc).1

/-- The pieces of a text, written as names, are the text. -/
theorem slashed_slashPieces (s : List Char) : slashed ((slashPieces s).map .name) = s := by
  induction s with
  | nil => rfl
  | cons c s ih =>
    obtain ⟨piece, pieces, hp⟩ := slashPieces_eq_cons s
    rw [hp] at ih
    rw [slashPieces]
    by_cases hc : c = '/'
    · rw [if_pos hc, hp, List.map_cons, List.map_cons, slashed, ← List.map_cons, ih, hc]
      · rfl
      · simp
    · rw [if_neg hc, hp]
      cases pieces with
      | nil => exact congrArg (c :: ·) ih
      | cons piece' pieces => exact congrArg (c :: ·) ih

end Path

end NameResolution
