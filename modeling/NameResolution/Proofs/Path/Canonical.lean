import NameResolution.Proofs.Path.Key
import NameResolution.Proofs.Path.Shape
import NameResolution.Proofs.Text.LowerCase

/-!
# Canonical keys are canonical

The key of a file name that stands on no drive is spelled in one way only: a slash, and
segments that are names with single slashes between them (`IsCanonical`), folded once and
for all. Such a text is its own key, seen from anywhere (`of_isCanonical`), and a relative
name stands for the place that its absolute spelling stands for
(`normalise_place_absolute`).

That folding leaves the spelling canonical rests on two facts about lower case: it is done
between slashes, and no text but `.` and `..` themselves is lowered to them.
-/

namespace NameResolution

/-! ## The place a name stands for -/

/-- Does the name begin with a drive, an ASCII letter and a colon? -/
def startsOnDrive : List Char → Bool
  | d :: ':' :: _ => d.isAlpha
  | _ => false

/-- The place that a file name stands for, seen from the directory `cwd`. -/
def CanonicalKey.place (cwd : Path) (fileName : List Char) : Path :=
  if isRooted (unifySlashes fileName) || cwd.spelling.isEmpty then ⟨unifySlashes fileName⟩
  else cwd.join ⟨unifySlashes fileName⟩

theorem CanonicalKey.of_eq (policy : CasePolicy) (cwd : Path) (fileName : List Char) :
    CanonicalKey.of policy cwd fileName =
      ⟨policy.fold (unifySlashes (CanonicalKey.place cwd fileName).normalise.spelling)⟩ := rfl

/-- With its slashes unified, a name has no backslash. -/
theorem not_mem_unifySlashes (name : List Char) : '\\' ∉ unifySlashes name := by
  unfold unifySlashes
  intro hmem
  obtain ⟨c, -, hc⟩ := List.mem_map.mp hmem
  split at hc
  next => exact absurd hc (by decide)
  next hne => exact hne hc

theorem startsOnDrive_cons (c d : Char) (name : List Char) :
    startsOnDrive (c :: d :: name) = (decide (d = ':') && c.isAlpha) := by
  unfold startsOnDrive
  split
  next h =>
    cases h
    simp
  next h =>
    have hd : d ≠ ':' := fun hd => h c name (by rw [hd])
    simp [hd]

/-- Unifying slashes keeps a drive where it is. -/
theorem startsOnDrive_unifySlashes (name : List Char) :
    startsOnDrive (unifySlashes name) = startsOnDrive name := by
  match name with
  | [] => rfl
  | [c] => rfl
  | c :: d :: name =>
    have hunify : unifySlashes (c :: d :: name) =
        (if c = '\\' then '/' else c) :: (if d = '\\' then '/' else d) :: unifySlashes name := rfl
    rw [hunify, startsOnDrive_cons, startsOnDrive_cons]
    by_cases hd : d = '\\'
    · simp [hd]
    · by_cases hc : c = '\\'
      · have hslash : ('/').isAlpha = ('\\').isAlpha := by decide
        rw [if_neg hd, hc, if_pos rfl, hslash]
      · rw [if_neg hd, if_neg hc]

/-- A name is rooted at a slash or on a drive. -/
theorem isRooted_eq (name : List Char) :
    isRooted name = (name.head? == some '/' || startsOnDrive name) := by
  unfold isRooted
  split
  next => simp
  next d rest hslash =>
    have hd : d ≠ '/' := hslash
    simp [startsOnDrive_cons, hd]
  next hslash hdrive =>
    match name with
    | [] => rfl
    | [c] =>
      have hc : c ≠ '/' := fun hc => hslash [] (by rw [hc])
      simp [startsOnDrive, hc]
    | c :: d :: name =>
      have hc : c ≠ '/' := fun hc => hslash _ (by rw [hc])
      have hd : d ≠ ':' := fun hd => hdrive c name (by rw [hd])
      simp [startsOnDrive_cons, hc, hd]

/-- What starts on a drive does not start with a slash. -/
theorem isAbsolute_of_startsOnDrive {name : List Char} (h : startsOnDrive name = true) :
    (⟨name⟩ : Path).isAbsolute = false := by
  match name with
  | c :: d :: name =>
    rw [startsOnDrive_cons, Bool.and_eq_true] at h
    have hc : c ≠ '/' := by
      rintro rfl
      exact absurd h.2 (by decide)
    simpa [Path.isAbsolute] using hc

namespace CanonicalKey

variable {cwd : Path} {name : List Char}

/-- A name on a drive stands for itself, wherever it is seen from. -/
theorem place_of_startsOnDrive (h : startsOnDrive name = true) (cwd : Path) :
    place cwd name = ⟨unifySlashes name⟩ := by
  rw [place, isRooted_eq, startsOnDrive_unifySlashes, h, Bool.or_true, Bool.true_or, if_pos rfl]

/-- Seen from an absolute directory, a name that is on no drive stands for an absolute place. -/
theorem isAbsolute_place (habs : cwd.isAbsolute = true) :
    (place cwd name).isAbsolute = !startsOnDrive name := by
  unfold place
  rw [← startsOnDrive_unifySlashes]
  generalize unifySlashes name = name
  have hcwd : cwd.spelling.isEmpty = false := by
    cases hspell : cwd.spelling with
    | nil => simp [Path.isAbsolute, hspell] at habs
    | cons c rest => rfl
  rw [hcwd, Bool.or_false, isRooted_eq]
  cases hdrive : startsOnDrive name with
  | true => rw [Bool.or_true, if_pos rfl, isAbsolute_of_startsOnDrive hdrive]; rfl
  | false =>
    rw [Bool.or_false]
    split
    next h => exact h
    next => exact Path.isAbsolute_join habs _

end CanonicalKey

/-- The pieces of a text are lowered one by one. -/
theorem slashPieces_lowerCase (s : List Char) :
    slashPieces (Text.lowerCase s) = (slashPieces s).map Text.lowerCase := by
  have hkeeps : ∀ {a : List Char}, '/' ∉ a → '/' ∉ Text.lowerCase a :=
    fun ha hmem => ha (Text.mem_of_mem_lowerAfter (by decide) hmem)
  by_cases h : '/' ∈ s
  · obtain ⟨a, b, rfl, ha⟩ := List.eq_append_cons_of_mem h
    rw [Text.lowerCase_append_slash, slashPieces_append, slashPieces_append,
      slashPieces_of_not_mem ha, slashPieces_of_not_mem (hkeeps ha), slashPieces_lowerCase b,
      List.map_append]
    rfl
  · rw [slashPieces_of_not_mem h, slashPieces_of_not_mem (hkeeps h)]
    rfl
termination_by s.length

/-! ## Canonical texts -/

/-- A text spelled as the keys are: a slash, and names with single slashes between them. -/
structure IsCanonical (text : List Char) : Prop where
  rooted : text.head? = some '/'
  no_backslash : '\\' ∉ text
  /-- Every segment behind the root is a name, unless the root stands alone. -/
  segments : text = ['/'] ∨
    ∀ segment ∈ slashPieces text.tail, segment ≠ [] ∧ segment ≠ ['.'] ∧ segment ≠ ['.', '.']

namespace IsCanonical

variable {text : List Char}

/-- The normal form of an absolute path without backslashes is canonical. -/
theorem of_normalise {p : Path} (habs : p.isAbsolute = true) (hplain : '\\' ∉ p.spelling) :
    IsCanonical p.normalise.spelling := by
  obtain ⟨left, hleft, hmem, hspell⟩ := p.normalise_spelling
  obtain ⟨names, hnames⟩ := Path.collapse_of_isAbsolute habs
  rw [hleft, Path.rootStep, if_pos habs, List.singleton_append, List.cons.injEq] at hnames
  obtain ⟨-, rfl⟩ := hnames
  rw [if_pos habs] at hspell
  refine ⟨by rw [hspell]; rfl, ?_, ?_⟩
  · intro hback
    rcases Path.mem_normalise_spelling hback with h | h
    · exact absurd h (by decide)
    · exact hplain h
  · rw [hspell]
    cases names with
    | nil => exact .inl rfl
    | cons t names =>
      refine .inr fun segment hsegment => ?_
      rw [List.tail_cons, Path.slashPieces_slashed (by simp) fun c hc => (hmem c hc).1] at hsegment
      obtain ⟨c, hc, rfl⟩ := List.mem_map.mp hsegment
      obtain ⟨u, -, rfl⟩ := List.mem_map.mp hc
      obtain ⟨hne, -, hdot, hparent⟩ := (hmem _ hc).1
      exact ⟨hne, hdot, hparent⟩

/-- A canonical text is a normal form. -/
theorem normalise_eq (h : IsCanonical text) : (⟨text⟩ : Path).normalise = ⟨text⟩ := by
  obtain ⟨rest, rfl⟩ := List.head?_eq_some_iff.mp h.rooted
  rcases h.segments with hroot | hsegments
  · rw [hroot]
    rfl
  · rw [List.tail_cons] at hsegments
    -- every segment is read as a name, and names stay
    have hread : Path.componentsOf rest = (slashPieces rest).map .name := by
      rw [Path.componentsOf, ← List.filterMap_eq_map]
      refine List.filterMap_congr fun segment hsegment => ?_
      obtain ⟨hne, hdot, hparent⟩ := hsegments segment hsegment
      simp [Component.ofPiece?, hne, hdot, hparent]
    have hcollapse : Component.collapse (.root :: (slashPieces rest).map .name) =
        .root :: (slashPieces rest).map .name := by
      have hroot : Component.stack [] .root = [.root] := rfl
      rw [Component.collapse, List.foldl_cons, hroot, Component.foldl_stack_names]
      simp
    have hcomponents : (⟨'/' :: rest⟩ : Path).components = .root :: Path.componentsOf rest := rfl
    rw [Path.normalise, hcomponents, hread, hcollapse, Path.ofComponents,
      Path.slashed_slashPieces]

/-- Lower-casing leaves a text canonical. -/
theorem lowerCase (h : IsCanonical text) : IsCanonical (Text.lowerCase text) := by
  obtain ⟨rest, rfl⟩ := List.head?_eq_some_iff.mp h.rooted
  have hlower : Text.lowerCase ('/' :: rest) = '/' :: Text.lowerCase rest :=
    Text.lowerCase_append_slash [] rest
  refine ⟨by rw [hlower]; rfl, ?_, ?_⟩
  · intro hback
    exact h.no_backslash (Text.mem_of_mem_lowerAfter (by decide) hback)
  · rw [hlower]
    rcases h.segments with hroot | hsegments
    · rw [List.cons.injEq] at hroot
      rw [hroot.2]
      exact .inl rfl
    · refine .inr fun segment hsegment => ?_
      rw [List.tail_cons] at hsegments hsegment
      rw [slashPieces_lowerCase] at hsegment
      obtain ⟨piece, hpiece, rfl⟩ := List.mem_map.mp hsegment
      obtain ⟨hne, hdot, hparent⟩ := hsegments piece hpiece
      exact ⟨fun he => hne (Text.eq_of_lowerCase_eq he (by simp)),
        fun he => hdot (Text.eq_of_lowerCase_eq he (by simp)),
        fun he => hparent (Text.eq_of_lowerCase_eq he (by simp))⟩

/-- Folding cases keeps a text canonical. -/
theorem fold (h : IsCanonical text) : ∀ policy : CasePolicy, IsCanonical (policy.fold text)
  | .sensitive => h
  | .insensitive => h.lowerCase

end IsCanonical

/-! ## Keys -/

theorem fold_fold (text : List Char) :
    ∀ policy : CasePolicy, policy.fold (policy.fold text) = policy.fold text
  | .sensitive => rfl
  | .insensitive => Text.lowerCase_lowerCase text

namespace CanonicalKey

/-- A canonical text that folding leaves as it is has itself for a key, seen from anywhere. -/
theorem of_isCanonical {text : List Char} (h : IsCanonical text) {policy : CasePolicy}
    (hfold : policy.fold text = text) (directory : Path) : of policy directory text = ⟨text⟩ := by
  have hplain : unifySlashes text = text := unifySlashes_of_not_mem h.no_backslash
  have hplace : place directory text = ⟨text⟩ := by
    rw [place, hplain, isRooted_eq, h.rooted]
    rfl
  rw [of_eq, hplace, h.normalise_eq, hplain, hfold]

variable {cwd : Path} {name : List Char}

/-- Seen from a directory without backslashes, a name is put at a place without any. -/
theorem not_mem_place (hcwd : '\\' ∉ cwd.spelling) : '\\' ∉ (place cwd name).spelling := by
  have hname := not_mem_unifySlashes name
  unfold place
  split
  next => exact hname
  next =>
    intro hmem
    rcases Path.mem_join_spelling hmem with h | h | h
    · exact absurd h (by decide)
    · exact hcwd h
    · exact hname h

/-- Before it is folded, the key of a name that is on no drive is a canonical text. -/
theorem isCanonical_place (habs : cwd.isAbsolute = true) (hcwd : '\\' ∉ cwd.spelling)
    (hdrive : startsOnDrive name = false) : IsCanonical (place cwd name).normalise.spelling :=
  .of_normalise (by rw [isAbsolute_place habs, hdrive]; rfl) (not_mem_place hcwd)

/-- Without backslashes, a key is the normal form with its cases folded. -/
theorem of_eq_fold (h : '\\' ∉ (place cwd name).spelling) (policy : CasePolicy) :
    of policy cwd name = ⟨policy.fold (place cwd name).normalise.spelling⟩ := by
  rw [of_eq, unifySlashes_normalise h]

/-- A relative name stands for the place that its absolute spelling stands for. -/
theorem normalise_place_absolute (habs : cwd.isAbsolute = true) (hcwd : '\\' ∉ cwd.spelling)
    (hrel : isRooted (unifySlashes name) = false) (directory : Path) :
    (place directory (cwd.spelling ++ '/' :: name)).normalise = (place cwd name).normalise := by
  obtain ⟨rest, hspell⟩ := List.head?_eq_some_iff.mp (beq_iff_eq.mp habs)
  have hunify : unifySlashes (cwd.spelling ++ '/' :: name) =
      cwd.spelling ++ '/' :: unifySlashes name := by
    have hplain := unifySlashes_of_not_mem hcwd
    unfold unifySlashes at hplain ⊢
    rw [List.map_append, hplain]
    rfl
  have hfar : place directory (cwd.spelling ++ '/' :: name) =
      ⟨cwd.spelling ++ '/' :: unifySlashes name⟩ := by
    rw [place, hunify, isRooted_eq, hspell]
    rfl
  have hnear : place cwd name = cwd.join ⟨unifySlashes name⟩ := by
    rw [place, hrel, hspell]
    rfl
  have htail : (⟨unifySlashes name⟩ : Path).isAbsolute = false := by
    rw [isRooted_eq, Bool.or_eq_false_iff] at hrel
    exact hrel.1
  -- both are read as the steps of the directory and those of the name behind it
  have hsteps : (⟨cwd.spelling ++ '/' :: unifySlashes name⟩ : Path).steps =
      cwd.steps ++ (⟨unifySlashes name⟩ : Path).steps := by
    have hroot : (⟨cwd.spelling ++ '/' :: unifySlashes name⟩ : Path).rootStep = cwd.rootStep := by
      simp [Path.rootStep, Path.isAbsolute, hspell]
    have hnone : (⟨unifySlashes name⟩ : Path).rootStep = [] := by
      rw [Path.rootStep, htail]
      rfl
    rw [Path.steps, Path.steps, Path.steps, hroot, hnone, Path.componentsOf_append,
      List.append_assoc, List.nil_append]
  rw [hfar, hnear, Path.normalise_eq, Path.normalise_eq, hsteps, Path.steps_join htail]

end CanonicalKey

end NameResolution
