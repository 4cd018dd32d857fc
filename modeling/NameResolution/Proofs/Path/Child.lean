import NameResolution.Proofs.Path.Ascending
import NameResolution.Proofs.Path.NormalForm

/-!
# Children of a path

A child of a path is spelled by joining one component, and is read as the path with that
component behind it (`Path.IsChild`). Joining a relative path puts what it is read as
behind the base, unless the base is empty (`components_join`); so the first step that a
longer path takes beyond a base always gives a child of the base (`isChild_of_components`),
and a path has one child for a component (`IsChild.eq_of_compare`).
-/

namespace NameResolution

namespace Path

/-! ## What a joined path is read as -/

/-- A text without a root or a `.` in front has no components but its steps. -/
theorem components_plain {text : List Char} (hroot : ∀ rest, text ≠ '/' :: rest)
    (hdot : text ≠ ['.']) (hcurrent : ∀ rest, text ≠ '.' :: '/' :: rest) :
    (⟨text⟩ : Path).components = componentsOf text := by
  unfold components
  split
  next rest h => exact absurd h (hroot rest)
  next h => exact absurd h hdot
  next rest h => exact absurd h (hcurrent rest)
  next => rfl

/-- What is written behind a text and a slash is read by itself. -/
theorem components_append_slash {front : List Char} (hfront : front ≠ []) (rest : List Char) :
    (⟨front ++ '/' :: rest⟩ : Path).components =
      (⟨front⟩ : Path).components ++ componentsOf rest := by
  obtain ⟨c, text, rfl⟩ := List.exists_cons_of_ne_nil hfront
  by_cases hroot : c = '/'
  · subst hroot
    exact congrArg (Component.root :: ·) (componentsOf_append text rest)
  by_cases hcurrent : c = '.' ∧ (text = [] ∨ ∃ more, text = '/' :: more)
  · obtain ⟨rfl, rfl | ⟨more, rfl⟩⟩ := hcurrent
    · rfl
    · exact congrArg (Component.current :: ·) (componentsOf_append more rest)
  -- neither text starts with a root or a `.` of its own
  · have hlong : (⟨c :: text ++ '/' :: rest⟩ : Path).components =
        componentsOf (c :: text ++ '/' :: rest) := by
      refine components_plain (by simp [hroot]) (by simp) ?_
      intro more hmore
      cases text with
      | nil => exact hcurrent ⟨(List.cons.inj hmore).1, .inl rfl⟩
      | cons d text =>
        obtain ⟨hc, hd⟩ := List.cons.inj hmore
        exact hcurrent ⟨hc, .inr ⟨text, by rw [(List.cons.inj hd).1]⟩⟩
    have hshort : (⟨c :: text⟩ : Path).components = componentsOf (c :: text) := by
      refine components_plain (by simp [hroot]) ?_ ?_
      · intro h
        exact hcurrent ⟨(List.cons.inj h).1, .inl (List.cons.inj h).2⟩
      · intro more h
        exact hcurrent ⟨(List.cons.inj h).1, .inr ⟨more, (List.cons.inj h).2⟩⟩
    rw [hlong, hshort, componentsOf_append]

/-- A relative path is written behind the base. -/
theorem join_of_relative {base tail : Path} (h : tail.isAbsolute = false) :
    base.join tail = ⟨opened base.spelling ++ tail.spelling⟩ := by
  rw [join, if_neg (by simp [h])]

/-- Behind the empty path, a path is itself. -/
theorem join_of_spelling_nil {base : Path} (h : base.spelling = []) (tail : Path) :
    base.join tail = tail := by
  unfold join
  split
  next => rfl
  next => rw [h]; rfl

/-- A base that is not empty has a slash behind it when a path is joined. -/
theorem exists_opened_eq {text : List Char} (h : text ≠ []) :
    ∃ front, opened text = front ++ ['/'] ∧ (text = front ∨ text = front ++ ['/']) := by
  by_cases hlast : text.getLast? = some '/'
  · obtain ⟨front, hfront⟩ := List.getLast?_eq_some_iff.mp hlast
    exact ⟨front, by rw [opened, if_pos (.inr hlast), hfront], .inr hfront⟩
  · exact ⟨text, by rw [opened, if_neg (by simp [h, hlast])], .inl rfl⟩

/-- A relative path that is joined is read behind the base. -/
theorem components_join {base tail : Path} (hbase : base.spelling ≠ [])
    (htail : tail.isAbsolute = false) :
    (base.join tail).components = base.components ++ componentsOf tail.spelling := by
  obtain ⟨front, hopened, hfront⟩ := exists_opened_eq hbase
  have hjoin : base.join tail = ⟨front ++ '/' :: tail.spelling⟩ := by
    rw [join_of_relative htail, hopened, List.append_assoc]
    rfl
  rw [hjoin]
  obtain ⟨base⟩ := base
  rcases hfront with rfl | hslash
  · exact components_append_slash hbase _
  · obtain rfl : base = front ++ ['/'] := hslash
    by_cases hempty : front = []
    · subst hempty
      rfl
    · rw [components_append_slash hempty, components_append_slash hempty, componentsOf_nil,
        List.append_nil]

/-! ## Children -/

/-- A path with one component written behind it, and read behind it. -/
structure IsChild (p : Path) (x : Component) (c : Path) : Prop where
  spelled : c = p.join ⟨x.text⟩
  components : c.components = p.components ++ [x]

/-- Only the empty path has no components. -/
theorem spelling_of_components_nil {p : Path} (h : p.components = []) : p.spelling = [] := by
  unfold components at h
  split at h
  next => cases h
  next => cases h
  next => cases h
  next hroot hdot hcurrent =>
    by_contra hne
    -- the first piece is neither empty nor a single dot, and so it means something
    obtain ⟨piece, pieces, hpieces⟩ := slashPieces_eq_cons p.spelling
    have hwhole : slashed ((piece :: pieces).map .name) = p.spelling := by
      rw [← hpieces, slashed_slashPieces]
    have hnone : Component.ofPiece? piece = none := by
      have hall := List.filterMap_eq_nil_iff.mp h
      exact hall piece (by rw [hpieces]; exact List.mem_cons_self)
    have hpiece : piece = [] ∨ piece = ['.'] := by
      unfold Component.ofPiece? at hnone
      split at hnone
      next hmeans => exact hmeans
      next => split at hnone <;> cases hnone
    cases pieces with
    | nil =>
      rcases hpiece with rfl | rfl
      · exact hne hwhole.symm
      · exact hdot hwhole.symm
    | cons next pieces =>
      rcases hpiece with rfl | rfl
      · exact hroot _ hwhole.symm
      · exact hcurrent _ hwhole.symm

/-- Behind the first component of a path there are only steps. -/
theorem isStep_of_mem_tail {p : Path} {x : Component} (h : x ∈ p.components.tail) : x.IsStep := by
  unfold components at h
  split at h
  next => exact isStep_of_mem_componentsOf h
  next => cases h
  next => exact isStep_of_mem_componentsOf h
  next => exact isStep_of_mem_componentsOf (List.mem_of_mem_tail h)

/-- A path is read as steps, but for a root or a dot at its start. -/
theorem isStep_of_mem_components {p : Path} {x : Component} (h : x ∈ p.components) :
    x.IsStep ∨ x = .root ∨ x = .current := by
  obtain ⟨cs, hcs, hsteps⟩ := p.components_eq
  rw [hcs, List.mem_append] at h
  rcases h with h | h
  · right; left
    unfold rootStep at h
    split at h
    next => exact List.mem_singleton.mp h
    next => cases h
  · exact (hsteps x h).imp id .inr

theorem relative_text {x : Component} (h : x.IsStep) : (⟨x.text⟩ : Path).isAbsolute = false := by
  rw [isAbsolute, beq_eq_false_iff_ne]
  intro hhead
  exact not_mem_text h (List.mem_of_mem_head? hhead)

/-- A step behind a path that is not empty gives a child. -/
theorem isChild_join {p : Path} (hp : p.spelling ≠ []) {x : Component} (hx : x.IsStep) :
    p.IsChild x (p.join ⟨x.text⟩) := by
  refine ⟨rfl, ?_⟩
  rw [components_join hp (relative_text hx), componentsOf_text hx]

/-- The first component that a longer path has beyond a base gives a child of the base. -/
theorem isChild_of_components {p q : Path} {x : Component} {rest : List Component}
    (h : q.components = p.components ++ x :: rest) : p.IsChild x (p.join ⟨x.text⟩) := by
  by_cases hp : p.spelling = []
  · refine ⟨rfl, ?_⟩
    have hnil : p.components = [] := by
      obtain ⟨spelling⟩ := p
      obtain rfl : spelling = [] := hp
      rfl
    rw [join_of_spelling_nil hp, hnil, List.nil_append]
    have hx : x ∈ q.components := by rw [h]; exact List.mem_append_right _ List.mem_cons_self
    rcases isStep_of_mem_components hx with hstep | rfl | rfl
    · have hsteps : ∀ y ∈ [x], y.IsStep := by simpa using hstep
      exact components_slashed hsteps
    · rfl
    · rfl
  · refine isChild_join hp (isStep_of_mem_tail (p := q) ?_)
    obtain ⟨first, others, hfirst⟩ := List.exists_cons_of_ne_nil (mt spelling_of_components_nil hp)
    rw [h, hfirst]
    exact List.mem_append_right _ List.mem_cons_self

/-- Behind a path that is not empty, only a step gives a child. -/
theorem IsChild.isStep {p c : Path} {x : Component} (h : p.IsChild x c) (hp : p.spelling ≠ []) :
    x.IsStep := by
  refine isStep_of_mem_tail (p := c) ?_
  obtain ⟨first, others, hfirst⟩ := List.exists_cons_of_ne_nil (mt spelling_of_components_nil hp)
  rw [h.components, hfirst]
  exact List.mem_append_right _ List.mem_cons_self

/-- A joined path has the characters of its tail. -/
theorem mem_join_of_mem_tail {base tail : Path} {x : Char} (h : x ∈ tail.spelling) :
    x ∈ (base.join tail).spelling := by
  unfold join
  split
  next => exact h
  next => exact List.mem_append_right _ h

/-- With a relative tail, a joined path has the characters of its base. -/
theorem mem_join_of_mem_base {base tail : Path} (htail : tail.isAbsolute = false) {x : Char}
    (h : x ∈ base.spelling) : x ∈ (base.join tail).spelling := by
  rw [join_of_relative htail]
  refine List.mem_append_left _ ?_
  unfold opened
  split
  next => exact h
  next => exact List.mem_append_left _ h

/-- Behind a base that is not empty, a joined path is not empty. -/
theorem join_spelling_ne_nil {base tail : Path} (hbase : base.spelling ≠ [])
    (htail : tail.isAbsolute = false) : (base.join tail).spelling ≠ [] := by
  obtain ⟨x, hx⟩ := List.exists_mem_of_ne_nil _ hbase
  exact List.ne_nil_of_mem (mem_join_of_mem_base htail hx)

/-- Joining brings in nothing but slashes. -/
theorem not_mem_join {base tail : Path} {x : Char} (hslash : x ≠ '/') (hbase : x ∉ base.spelling)
    (htail : x ∉ tail.spelling) : x ∉ (base.join tail).spelling := by
  intro hmem
  rcases mem_join_spelling hmem with h | h | h
  · exact hslash h
  · exact hbase h
  · exact htail h

/-- Children of a path that are one for the order of paths are spelled alike. -/
theorem IsChild.eq_of_compare {p c d : Path} {x y : Component} (hc : p.IsChild x c)
    (hd : p.IsChild y d) (h : c.compare d = .eq) : c = d := by
  rw [compare_eq_iff, hc.components, hd.components] at h
  rw [hc.spelled, hd.spelled, (List.cons.inj (List.append_cancel_left h)).1]

/-- Children of a path are listed in ascending order, and none of them is lost. -/
theorem lists_children {p : Path} {l : List Path} {Listed : Path → Prop}
    (hmem : ∀ c, c ∈ l ↔ Listed c) (hchild : ∀ c, Listed c → ∃ x, p.IsChild x c) :
    (sortDistinct Path.compare l).Pairwise (fun a b => a.compare b = .lt) ∧
      ∀ c, c ∈ sortDistinct Path.compare l ↔ Listed c := by
  refine ⟨pairwise_sortDistinct l, fun c => ?_⟩
  rw [mem_sortDistinct, hmem]
  intro a ha b hb hab
  obtain ⟨x, hx⟩ := hchild a ((hmem a).mp ha)
  obtain ⟨y, hy⟩ := hchild b ((hmem b).mp hb)
  exact hx.eq_of_compare hy hab

end Path

end NameResolution
