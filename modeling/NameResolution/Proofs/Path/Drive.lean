import NameResolution.Proofs.Path.Canonical

/-!
# Names on a drive

A name on a drive is rooted, and its key is the same wherever it is seen from. Normalising
does not know of drives, though: to it, `c:` is a name that a `..` takes off like any other.
So the key of a name stays on its drive as long as no `..` in the rest of the name climbs
above the root of the drive (`climbs`). If one does, the drive leaves no trace in the key,
and what has the same rest on two drives has one key (`key_on_drive`).
-/

namespace NameResolution

/-- The name of a file on a drive: its letter, a colon, and the rest behind a slash. -/
def onDrive (letter : Char) (rest : List Char) : List Char := letter :: ':' :: '/' :: rest

/-- Do steps from a place `depth` names below a root come to a `..` that has no name to take
off? -/
def Component.climb : ℕ → List Component → Bool
  | _, [] => false
  | depth, .name _ :: cs => climb (depth + 1) cs
  | 0, .parent :: _ => true
  | depth + 1, .parent :: cs => climb depth cs
  | depth, _ :: cs => climb depth cs

/-- Does the rest of a name on a drive climb above the root of the drive? -/
def climbs (rest : List Char) : Bool :=
  Component.climb 0 (Path.componentsOf (unifySlashes rest))

/-- What stands in front of the first slash of a text. -/
def firstSegment (text : List Char) : List Char := text.takeWhile (· ≠ '/')

/-! ## Climbing steps -/

namespace Component

/-- Steps that do not climb leave what is under the names they start from. -/
theorem foldl_stack_of_not_climb : ∀ (cs : List Component) (names : List (List Char)),
    (∀ c ∈ cs, c.IsStep) → climb names.length cs = false →
      ∃ names' : List (List Char), ∀ bottom : List Component,
        cs.foldl stack (names.map .name ++ bottom) = names'.map .name ++ bottom
  | [], names, _, _ => ⟨names, fun _ => rfl⟩
  | c :: cs, names, hcs, hclimb => by
    have hc := hcs c List.mem_cons_self
    have hrest : ∀ x ∈ cs, x.IsStep := fun x hx => hcs x (List.mem_cons_of_mem _ hx)
    cases c with
    | root => exact hc.elim
    | current => exact hc.elim
    | name t =>
      obtain ⟨names', hleft⟩ := foldl_stack_of_not_climb cs (t :: names) hrest hclimb
      refine ⟨names', fun bottom => ?_⟩
      rw [List.foldl_cons, stack_name]
      exact hleft bottom
    | parent =>
      cases names with
      | nil => exact absurd hclimb (by simp [climb])
      | cons t names => exact foldl_stack_of_not_climb cs names hrest hclimb

/-- Steps that climb take off the name that is under those they start from, and leave nothing
that depends on it. -/
theorem foldl_stack_of_climb : ∀ (cs : List Component) (names : List (List Char)),
    (∀ c ∈ cs, c.IsStep) → climb names.length cs = true →
      ∃ left : List Component, ∀ drive : List Char,
        cs.foldl stack (names.map .name ++ [.name drive]) = left
  | [], _, _, hclimb => absurd hclimb (by simp [climb])
  | c :: cs, names, hcs, hclimb => by
    have hc := hcs c List.mem_cons_self
    have hrest : ∀ x ∈ cs, x.IsStep := fun x hx => hcs x (List.mem_cons_of_mem _ hx)
    cases c with
    | root => exact hc.elim
    | current => exact hc.elim
    | name t =>
      obtain ⟨left, hleft⟩ := foldl_stack_of_climb cs (t :: names) hrest hclimb
      refine ⟨left, fun drive => ?_⟩
      rw [List.foldl_cons, stack_name]
      exact hleft drive
    | parent =>
      cases names with
      | nil => exact ⟨cs.foldl stack [], fun _ => rfl⟩
      | cons t names => exact foldl_stack_of_climb cs names hrest hclimb

end Component

/-! ## Normal forms -/

section Normal

open Component (collapse stack climb)

variable {letter : Char}

/-- The rest of a name on a drive is read over the drive, which is a name like any other. -/
theorem collapse_onDrive (hletter : letter.isAlpha = true) (rest : List Char) :
    collapse (⟨onDrive letter rest⟩ : Path).steps =
      ((Path.componentsOf rest).foldl stack [.name [letter, ':']]).reverse := by
  have hslash : letter ≠ '/' := by
    rintro rfl
    exact absurd hletter (by decide)
  have hdrive : Path.componentsOf [letter, ':'] = [.name [letter, ':']] := by
    simp [Path.componentsOf, slashPieces, Component.ofPiece?, hslash]
  have hroot : (⟨onDrive letter rest⟩ : Path).rootStep = [] := by
    simp [Path.rootStep, Path.isAbsolute, onDrive, hslash]
  have hread : Path.componentsOf (onDrive letter rest) =
      Path.componentsOf [letter, ':'] ++ Path.componentsOf rest :=
    Path.componentsOf_append [letter, ':'] rest
  rw [collapse, Path.steps, hroot, List.nil_append, hread, hdrive, List.singleton_append,
    List.foldl_cons, Component.stack_name]

/-- What does not climb above a drive stays on it. -/
theorem normalise_onDrive_of_not_climb {rest : List Char}
    (h : climb 0 (Path.componentsOf rest) = false) (hletter : letter.isAlpha = true) :
    ∃ names : List (List Char), (⟨onDrive letter rest⟩ : Path).normalise.spelling =
      Path.slashed (.name [letter, ':'] :: names.map .name) := by
  obtain ⟨names, hleft⟩ := Component.foldl_stack_of_not_climb (Path.componentsOf rest) []
    (fun c hc => Path.isStep_of_mem_componentsOf hc) h
  have hover : (Path.componentsOf rest).foldl stack [.name [letter, ':']] =
      names.map .name ++ [.name [letter, ':']] := hleft _
  refine ⟨names.reverse, ?_⟩
  rw [Path.normalise_eq, collapse_onDrive hletter, hover, List.reverse_append, List.map_reverse]
  rfl

/-- What climbs above one drive climbs above all of them, to the same place. -/
theorem normalise_onDrive_of_climb {rest : List Char}
    (h : climb 0 (Path.componentsOf rest) = true) (hletter : letter.isAlpha = true)
    {other : Char} (hother : other.isAlpha = true) :
    (⟨onDrive other rest⟩ : Path).normalise = (⟨onDrive letter rest⟩ : Path).normalise := by
  obtain ⟨left, hleft⟩ := Component.foldl_stack_of_climb (Path.componentsOf rest) []
    (fun c hc => Path.isStep_of_mem_componentsOf hc) h
  have hover : ∀ drive : List Char, (Path.componentsOf rest).foldl stack [.name drive] = left :=
    hleft
  rw [Path.normalise_eq, Path.normalise_eq, collapse_onDrive hletter, collapse_onDrive hother,
    hover, hover]

end Normal

/-! ## Keys -/

/-- What has no slash is in the first segment as a whole. -/
theorem firstSegment_append {s : List Char} (h : '/' ∉ s) (t : List Char) :
    firstSegment (s ++ t) = s ++ firstSegment t :=
  List.takeWhile_append_of_pos fun _ hc => decide_eq_true fun he => h (he ▸ hc)

/-- Folding goes on between slashes, so that the first segment is folded by itself. -/
theorem firstSegment_fold_slashed {drive : List Char} (h : '/' ∉ drive) (cs : List Component)
    (policy : CasePolicy) :
    firstSegment (policy.fold (Path.slashed (.name drive :: cs))) = policy.fold drive := by
  have hfold : '/' ∉ policy.fold drive := by
    cases policy with
    | sensitive => exact h
    | insensitive => exact fun hmem => h (Text.mem_of_mem_lowerAfter (by decide) hmem)
  cases cs with
  | nil =>
    have hwhole := firstSegment_append hfold []
    rw [List.append_nil] at hwhole
    rw [Path.slashed, Component.text, hwhole]
    exact List.append_nil _
  | cons c cs =>
    have hslash : policy.fold (drive ++ '/' :: Path.slashed (c :: cs)) =
        policy.fold drive ++ '/' :: policy.fold (Path.slashed (c :: cs)) := by
      cases policy with
      | sensitive => rfl
      | insensitive => exact Text.lowerCase_append_slash drive _
    rw [Path.slashed, Component.text, hslash, firstSegment_append hfold]
    · simp [firstSegment]
    · simp

/-- A name on a drive is normalised as it stands. -/
theorem CanonicalKey.of_onDrive (policy : CasePolicy) (cwd : Path) {letter : Char}
    (hletter : letter.isAlpha = true) (rest : List Char) :
    CanonicalKey.of policy cwd (onDrive letter rest) =
      ⟨policy.fold (⟨onDrive letter (unifySlashes rest)⟩ : Path).normalise.spelling⟩ := by
  have hstarts : startsOnDrive (onDrive letter rest) = true := hletter
  have hback : letter ≠ '\\' := by
    rintro rfl
    exact absurd hletter (by decide)
  have hunify : unifySlashes (onDrive letter rest) = onDrive letter (unifySlashes rest) := by
    simp [unifySlashes, onDrive, hback]
  have hplace := place_of_startsOnDrive hstarts cwd
  have hplain : '\\' ∉ (place cwd (onDrive letter rest)).spelling := by
    rw [hplace]
    exact not_mem_unifySlashes _
  rw [of_eq_fold hplain, hplace, hunify]

/-- **Keys on a drive.** The key of a name on a drive is the same from everywhere. If the rest of
the name does not climb above the root of the drive, the drive, folded, is the first segment of the
key, and what is on another drive and does not climb has another key. If the rest does climb, the
key is that of the same rest on any other drive. -/
theorem key_on_drive (policy : CasePolicy) (cwd : Path) {letter : Char}
    (hletter : letter.isAlpha = true) (rest : List Char) :
    (∀ cwd' : Path, CanonicalKey.of policy cwd' (onDrive letter rest) =
      CanonicalKey.of policy cwd (onDrive letter rest)) ∧
    (climbs rest = false →
      firstSegment (CanonicalKey.of policy cwd (onDrive letter rest)).text =
        policy.fold [letter, ':'] ∧
      ∀ (other : Char) (rest' : List Char), other.isAlpha = true →
        policy.fold [other, ':'] ≠ policy.fold [letter, ':'] → climbs rest' = false →
          CanonicalKey.of policy cwd (onDrive other rest') ≠
            CanonicalKey.of policy cwd (onDrive letter rest)) ∧
    (climbs rest = true → ∀ other : Char, other.isAlpha = true →
      CanonicalKey.of policy cwd (onDrive other rest) =
        CanonicalKey.of policy cwd (onDrive letter rest)) := by
  have hfirst : ∀ {letter : Char} {rest : List Char}, letter.isAlpha = true →
      climbs rest = false →
        firstSegment (CanonicalKey.of policy cwd (onDrive letter rest)).text =
          policy.fold [letter, ':'] := by
    intro letter rest hletter hstays
    obtain ⟨names, hspell⟩ := normalise_onDrive_of_not_climb hstays hletter
    have hdrive : '/' ∉ [letter, ':'] := by
      intro hmem
      rcases List.mem_cons.mp hmem with rfl | hmem
      · exact absurd hletter (by decide)
      · exact absurd hmem (by decide)
    rw [CanonicalKey.of_onDrive policy cwd hletter, hspell]
    exact firstSegment_fold_slashed hdrive _ policy
  refine ⟨?_, fun hstays => ⟨hfirst hletter hstays, ?_⟩, ?_⟩
  · intro cwd'
    rw [CanonicalKey.of_onDrive policy cwd' hletter, CanonicalKey.of_onDrive policy cwd hletter]
  · intro other rest' hother hdrives hstays' hkeys
    have hfirst' := hfirst hother hstays'
    rw [hkeys, hfirst hletter hstays] at hfirst'
    exact hdrives hfirst'.symm
  · intro hclimbs other hother
    rw [CanonicalKey.of_onDrive policy cwd hother, CanonicalKey.of_onDrive policy cwd hletter,
      normalise_onDrive_of_climb hclimbs hletter hother]

/-- A `..` at the root of a drive takes the drive off, and `c:` and `d:` have one key; one that has
a name to take off leaves the drive where it is. -/
theorem parent_key_on_drive :
    ∃ (up down : List Char) (proj work : Path),
      up = "../a.ts".toList ∧ down = "lib\\.//../A.ts".toList ∧
      proj = ⟨"/proj".toList⟩ ∧ work = ⟨"work".toList⟩ ∧ climbs up = true ∧
      CanonicalKey.of .sensitive proj (onDrive 'c' up) = ⟨"a.ts".toList⟩ ∧
      CanonicalKey.of .sensitive work (onDrive 'c' up) = ⟨"a.ts".toList⟩ ∧
      CanonicalKey.of .sensitive proj (onDrive 'd' up) = ⟨"a.ts".toList⟩ ∧
      climbs down = false ∧
      CanonicalKey.of .insensitive proj (onDrive 'C' down) = ⟨"c:/a.ts".toList⟩ ∧
      firstSegment (CanonicalKey.of .insensitive proj (onDrive 'C' down)).text = "c:".toList ∧
      CanonicalKey.of .insensitive proj (onDrive 'D' down) ≠
        CanonicalKey.of .insensitive proj (onDrive 'C' down) := by
  have hletter : ('c').isAlpha = true ∧ ('C').isAlpha = true := by decide
  have hup : climbs "../a.ts".toList = true := by decide
  have hdown : climbs "lib\\.//../A.ts".toList = false := by decide
  have hkey : CanonicalKey.of .sensitive ⟨"/proj".toList⟩ (onDrive 'c' "../a.ts".toList) =
      ⟨"a.ts".toList⟩ := by decide
  obtain ⟨hanywhere, -, hclimbs⟩ :=
    key_on_drive .sensitive ⟨"/proj".toList⟩ hletter.1 "../a.ts".toList
  obtain ⟨-, hstays, -⟩ :=
    key_on_drive .insensitive ⟨"/proj".toList⟩ hletter.2 "lib\\.//../A.ts".toList
  obtain ⟨hfirst, hother⟩ := hstays hdown
  refine ⟨_, _, _, _, rfl, rfl, rfl, rfl, hup, hkey, ?_, ?_, hdown, ?_, ?_, ?_⟩
  · rw [hanywhere, hkey]
  · rw [hclimbs hup 'd' (by decide), hkey]
  · decide +kernel
  · rw [hfirst]
    decide +kernel
  · exact hother 'D' _ (by decide) (by decide +kernel) hdown

end NameResolution
