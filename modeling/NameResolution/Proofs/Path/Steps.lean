import NameResolution.Path.Normal

/-!
# The steps of a path

`Path.components` keeps a `.` that opens a relative path. Nothing that resolves
`.` and `..` sees that component, so the theory of normal forms works with the
*steps* of a path instead: the root, if the path has one, and then the names and
`..` of its whole text. Steps follow the text: writing a slash between two texts
puts their steps one behind the other (`componentsOf_append`), joining two paths
does the same (`steps_join`), and what `slashed` writes is read back
(`componentsOf_slashed`).
-/

namespace NameResolution

/-! ## Pieces between slashes -/

theorem slashPieces_eq_cons (a : List Char) : ∃ piece pieces, slashPieces a = piece :: pieces := by
  cases a with
  | nil => exact ⟨[], [], rfl⟩
  | cons c a =>
    by_cases h : c = '/'
    · exact ⟨[], slashPieces a, by rw [slashPieces, if_pos h]⟩
    · rw [slashPieces, if_neg h]
      cases slashPieces a with
      | nil => exact ⟨[c], [], rfl⟩
      | cons piece pieces => exact ⟨c :: piece, pieces, rfl⟩

/-- A slash between two texts puts their pieces one behind the other. -/
theorem slashPieces_append (a b : List Char) :
    slashPieces (a ++ '/' :: b) = slashPieces a ++ slashPieces b := by
  induction a with
  | nil => rfl
  | cons c a ih =>
    rw [List.cons_append, slashPieces, slashPieces, ih]
    by_cases h : c = '/'
    · rw [if_pos h, if_pos h, List.cons_append]
    -- the character goes on the first piece, which is a piece of the first text
    · obtain ⟨piece, pieces, hp⟩ := slashPieces_eq_cons a
      rw [if_neg h, if_neg h, hp]
      rfl

/-- A text without slashes is one piece. -/
theorem slashPieces_of_not_mem {a : List Char} (h : '/' ∉ a) : slashPieces a = [a] := by
  induction a with
  | nil => rfl
  | cons c a ih =>
    rw [List.mem_cons, not_or] at h
    rw [slashPieces, if_neg (fun he => h.1 he.symm), ih h.2]

/-- No piece has a slash in it. -/
theorem not_mem_of_mem_slashPieces {a piece : List Char} (h : piece ∈ slashPieces a) :
    '/' ∉ piece := by
  induction a generalizing piece with
  | nil => simp_all [slashPieces]
  | cons c a ih =>
    rw [slashPieces] at h
    by_cases hc : c = '/'
    · rw [if_pos hc, List.mem_cons] at h
      rcases h with rfl | h
      · simp
      · exact ih h
    · obtain ⟨first, pieces, hp⟩ := slashPieces_eq_cons a
      rw [if_neg hc, hp] at h
      rcases List.mem_cons.mp h with rfl | h
      · have hfirst : '/' ∉ first := ih (by rw [hp]; exact List.mem_cons_self)
        simp only [List.mem_cons, not_or]
        exact ⟨fun he => hc he.symm, hfirst⟩
      · exact ih (by rw [hp]; exact List.mem_cons_of_mem _ h)

theorem mem_of_mem_slashPieces {a piece : List Char} {x : Char} (h : piece ∈ slashPieces a)
    (hx : x ∈ piece) : x ∈ a := by
  induction a generalizing piece with
  | nil =>
    rw [slashPieces, List.mem_singleton] at h
    rwa [h] at hx
  | cons c a ih =>
    rw [slashPieces] at h
    by_cases hc : c = '/'
    · rw [if_pos hc, List.mem_cons] at h
      rcases h with rfl | h
      · cases hx
      · exact List.mem_cons_of_mem _ (ih h hx)
    · obtain ⟨first, pieces, hp⟩ := slashPieces_eq_cons a
      rw [if_neg hc, hp] at h
      rcases List.mem_cons.mp h with rfl | h
      · rcases List.mem_cons.mp hx with rfl | hx
        · exact List.mem_cons_self
        · exact List.mem_cons_of_mem _ (ih (by rw [hp]; exact List.mem_cons_self) hx)
      · exact List.mem_cons_of_mem _ (ih (by rw [hp]; exact List.mem_cons_of_mem _ h) hx)

/-! ## Steps -/

/-- A component that moves: `..`, or a name that a path can hold. -/
def Component.IsStep : Component → Prop
  | .root | .current => False
  | .parent => True
  | .name t => t ≠ [] ∧ '/' ∉ t ∧ t ≠ ['.'] ∧ t ≠ ['.', '.']

namespace Path

/-- The root, if the path starts there. -/
def rootStep (p : Path) : List Component := if p.isAbsolute then [.root] else []

/-- The path read without any `.`: its root, then the names and `..` of its text. -/
def steps (p : Path) : List Component := p.rootStep ++ componentsOf p.spelling

/-- A path starts from the root, or from nowhere. -/
theorem rootStep_cases (p : Path) : p.rootStep = [] ∨ p.rootStep = [.root] := by
  unfold rootStep
  split
  next => exact .inr rfl
  next => exact .inl rfl

/-- Steps are written with slashes between them. -/
theorem ofComponents_steps {left : List Component} (h : ∀ c ∈ left, c.IsStep) :
    ofComponents left = ⟨slashed left⟩ := by
  cases left with
  | nil => rfl
  | cons c left =>
    cases c with
    | root => exact (h .root List.mem_cons_self).elim
    | _ => rfl

theorem componentsOf_nil : componentsOf [] = [] := rfl

/-- A slash between two texts puts their steps one behind the other. -/
theorem componentsOf_append (a b : List Char) :
    componentsOf (a ++ '/' :: b) = componentsOf a ++ componentsOf b := by
  simp [componentsOf, slashPieces_append]

/-- What a piece means is written like the piece, and moves if the piece holds no slash. -/
theorem text_eq_of_ofPiece? {piece : List Char} {c : Component}
    (h : Component.ofPiece? piece = some c) : c.text = piece ∧ ('/' ∉ piece → c.IsStep) := by
  unfold Component.ofPiece? at h
  split at h
  next => cases h
  next hdot =>
    rw [not_or] at hdot
    split at h
    next hparent =>
      cases h
      exact ⟨hparent.symm, fun _ => trivial⟩
    next hparent =>
      cases h
      exact ⟨rfl, fun hslash => ⟨hdot.1, hslash, hdot.2, hparent⟩⟩

/-- What is read of a text are steps. -/
theorem isStep_of_mem_componentsOf {text : List Char} {c : Component}
    (h : c ∈ componentsOf text) : c.IsStep := by
  obtain ⟨piece, hpiece, hc⟩ := List.mem_filterMap.mp h
  exact (text_eq_of_ofPiece? hc).2 (not_mem_of_mem_slashPieces hpiece)

theorem mem_of_mem_text {text : List Char} {c : Component} {x : Char}
    (h : c ∈ componentsOf text) (hx : x ∈ c.text) : x ∈ text := by
  obtain ⟨piece, hpiece, hc⟩ := List.mem_filterMap.mp h
  rw [(text_eq_of_ofPiece? hc).1] at hx
  exact mem_of_mem_slashPieces hpiece hx

theorem componentsOf_text {c : Component} (h : c.IsStep) : componentsOf c.text = [c] := by
  cases c with
  | root => exact h.elim
  | current => exact h.elim
  | parent => rfl
  | name t =>
    obtain ⟨hne, hslash, hdot, hparent⟩ := h
    simp [componentsOf, Component.text, slashPieces_of_not_mem hslash, Component.ofPiece?, hne,
      hdot, hparent]

/-- Steps written with slashes between them are read back. -/
theorem componentsOf_slashed :
    ∀ {cs : List Component}, (∀ c ∈ cs, c.IsStep) → componentsOf (slashed cs) = cs
  | [], _ => rfl
  | [c], h => componentsOf_text (h c List.mem_cons_self)
  | c :: d :: cs, h => by
    rw [slashed, componentsOf_append, componentsOf_text (h c List.mem_cons_self),
      componentsOf_slashed fun x hx => h x (List.mem_cons_of_mem _ hx)]
    · rfl
    · simp

/-- The characters that are written of components are theirs, but for slashes. -/
theorem mem_of_mem_slashed {x : Char} :
    ∀ {cs : List Component}, x ∈ slashed cs → x = '/' ∨ ∃ c ∈ cs, x ∈ c.text
  | [], h => by cases h
  | [c], h => .inr ⟨c, List.mem_cons_self, h⟩
  | c :: d :: cs, h => by
    rw [slashed, List.mem_append, List.mem_cons] at h
    · rcases h with h | h | h
      · exact .inr ⟨c, List.mem_cons_self, h⟩
      · exact .inl h
      · rcases mem_of_mem_slashed h with h | ⟨e, he, hx⟩
        · exact .inl h
        · exact .inr ⟨e, List.mem_cons_of_mem _ he, hx⟩
    · simp

/-- What is written of steps does not start with a slash. -/
theorem head?_slashed_ne {cs : List Component} (h : ∀ c ∈ cs, c.IsStep) :
    (slashed cs).head? ≠ some '/' := by
  -- a step begins with a character of its own, and what is written begins with the first step
  have htext : ∀ {c : Component}, c.IsStep → ∃ x t, c.text = x :: t ∧ x ≠ '/' := by
    intro c hc
    cases c with
    | root => exact hc.elim
    | current => exact hc.elim
    | parent => exact ⟨'.', ['.'], rfl, by decide⟩
    | name t =>
      obtain ⟨hne, hslash, -⟩ := hc
      obtain ⟨x, t, rfl⟩ := List.exists_cons_of_ne_nil hne
      exact ⟨x, t, rfl, fun he => hslash (he ▸ List.mem_cons_self)⟩
  match cs with
  | [] => simp [slashed]
  | [c] =>
    obtain ⟨x, t, hx, hne⟩ := htext (h c List.mem_cons_self)
    simpa [slashed, hx] using hne
  | c :: d :: cs =>
    obtain ⟨x, t, hx, hne⟩ := htext (h c List.mem_cons_self)
    simpa [slashed, hx] using hne

/-- Joining a relative path puts its steps behind those of the base. -/
theorem steps_join {base tail : Path} (h : tail.isAbsolute = false) :
    (base.join tail).steps = base.steps ++ tail.steps := by
  rw [join, if_neg (by simp [h])]
  have htail : tail.steps = componentsOf tail.spelling := by simp [steps, rootStep, h]
  rw [htail]
  -- what is written between base and tail depends on how the base ends
  rcases List.eq_nil_or_concat base.spelling with hb | ⟨text, x, hb⟩
  · have hopen : opened base.spelling = [] := by rw [opened, if_pos (Or.inl hb), hb]
    have hrel : base.isAbsolute = false := by simp [isAbsolute, hb]
    have hsame : (⟨opened base.spelling ++ tail.spelling⟩ : Path) = tail := by rw [hopen]; rfl
    rw [hsame, htail]
    simp [steps, rootStep, hrel, hb, componentsOf_nil]
  · rw [List.concat_eq_append] at hb
    have hroot : ∀ rest : List Char,
        (⟨base.spelling ++ rest⟩ : Path).rootStep = base.rootStep := by
      intro rest
      have hne : base.spelling ≠ [] := by rw [hb]; simp
      simp [rootStep, isAbsolute, hne]
    by_cases hx : x = '/'
    · have hopen : opened base.spelling = base.spelling := by
        rw [opened, if_pos (Or.inr (by rw [hb, hx]; simp))]
      rw [hopen, steps, steps, hroot, hb, hx, List.append_assoc, List.append_assoc,
        List.singleton_append, componentsOf_append, componentsOf_append, componentsOf_nil,
        List.append_nil]
    · have hopen : opened base.spelling = base.spelling ++ ['/'] := by
        rw [opened, if_neg]
        rw [hb]
        simpa using hx
      rw [hopen, List.append_assoc, List.singleton_append, steps, steps, hroot,
        componentsOf_append, List.append_assoc]

/-- An absolute path is not moved by what it is joined to. -/
theorem join_of_isAbsolute {base tail : Path} (h : tail.isAbsolute = true) :
    base.join tail = tail := by
  rw [join, if_pos h]

end Path

end NameResolution
