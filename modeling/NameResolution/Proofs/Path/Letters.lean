import Mathlib.Data.List.Forall2
import NameResolution.Proofs.Path.Canonical
import NameResolution.Proofs.Text.FinalSigma

/-!
# Names that differ in letter case only

Normalising looks at slashes and dots, and hands on every other character as it is. So if
two paths agree place by place up to a relation of characters that tells slashes and dots
apart, their normal forms agree place by place (`forall₂_normalise`).

Where a file system does not tell cases apart, two names whose characters have the same
lower case place by place therefore stand for places that differ in letter case only,
unless one of them is on a drive and the other is not. Their keys are the same but for the
sigmas that end a word (`caseless_keys_eq_iff`).
-/

namespace NameResolution

open scoped Relator

/-! ## Normal forms place by place -/

/-- A relation of characters that tells slashes and dots apart from all others. -/
structure KeepsMarks (R : Char → Char → Prop) : Prop where
  refl : ∀ c, R c c
  slash : ∀ {c d}, R c d → (c = '/' ↔ d = '/')
  dot : ∀ {c d}, R c d → (c = '.' ↔ d = '.')

/-- The same component, but for the characters of a name. -/
inductive Component.Alike (R : Char → Char → Prop) : Component → Component → Prop
  | root : Alike R .root .root
  | current : Alike R .current .current
  | parent : Alike R .parent .parent
  | name {s t : List Char} (h : List.Forall₂ R s t) : Alike R (.name s) (.name t)

namespace KeepsMarks

variable {R : Char → Char → Prop} (hR : KeepsMarks R)

include hR

theorem forall₂_refl (s : List Char) : List.Forall₂ R s s :=
  List.forall₂_same.mpr fun c _ => hR.refl c

/-- Texts that are alike letter by letter are cut at the same slashes. -/
theorem forall₂_slashPieces {s t : List Char} (h : List.Forall₂ R s t) :
    List.Forall₂ (List.Forall₂ R) (slashPieces s) (slashPieces t) := by
  induction h with
  | nil => exact .cons .nil .nil
  | @cons c d s t hcd hst ih =>
    rw [slashPieces, slashPieces]
    by_cases hc : c = '/'
    · rw [if_pos hc, if_pos ((hR.slash hcd).mp hc)]
      exact .cons .nil ih
    · rw [if_neg hc, if_neg fun hd => hc ((hR.slash hcd).mpr hd)]
      obtain ⟨p, ps, hp⟩ := slashPieces_eq_cons s
      obtain ⟨q, qs, hq⟩ := slashPieces_eq_cons t
      rw [hp, hq, List.forall₂_cons] at ih
      rw [hp, hq]
      exact .cons (.cons hcd ih.1) ih.2

/-- What is like dots is dots. -/
theorem eq_dots_iff {s t : List Char} (h : List.Forall₂ R s t) :
    ∀ n : ℕ, s = List.replicate n '.' ↔ t = List.replicate n '.' := by
  induction h with
  | nil => simp
  | cons hcd _ ih =>
    intro n
    cases n with
    | zero => simp
    | succ n => rw [List.replicate_succ, List.cons.injEq, List.cons.injEq, hR.dot hcd, ih n]

/-- Pieces that are alike are read as components that are alike, or not at all. -/
theorem rel_ofPiece? {s t : List Char} (h : List.Forall₂ R s t) :
    Option.Rel (Component.Alike R) (Component.ofPiece? s) (Component.ofPiece? t) := by
  have hempty : s = [] ↔ t = [] := hR.eq_dots_iff h 0
  have hdot : s = ['.'] ↔ t = ['.'] := hR.eq_dots_iff h 1
  have hparent : s = ['.', '.'] ↔ t = ['.', '.'] := hR.eq_dots_iff h 2
  unfold Component.ofPiece?
  simp only [hempty, hdot, hparent]
  split
  next => exact .none
  next =>
    split
    next => exact .some .parent
    next => exact .some (.name h)

/-- Texts that are alike are read as components that are alike. -/
theorem forall₂_componentsOf {s t : List Char} (h : List.Forall₂ R s t) :
    List.Forall₂ (Component.Alike R) (Path.componentsOf s) (Path.componentsOf t) :=
  List.rel_filterMap (fun _ _ hst => hR.rel_ofPiece? hst) (hR.forall₂_slashPieces h)

/-- Paths that are alike are both absolute, or none is. -/
theorem isAbsolute_eq {p q : Path} (h : List.Forall₂ R p.spelling q.spelling) :
    p.isAbsolute = q.isAbsolute := by
  obtain ⟨s⟩ := p
  obtain ⟨t⟩ := q
  unfold Path.isAbsolute
  cases h with
  | nil => rfl
  | cons hcd _ =>
    rw [Bool.eq_iff_iff]
    simpa using hR.slash hcd

omit hR in
/-- One step over stacks that are alike leads to stacks that are alike. -/
theorem forall₂_stack {kept kept' : List Component} {c c' : Component}
    (hkept : List.Forall₂ (Component.Alike R) kept kept') (hc : Component.Alike R c c') :
    List.Forall₂ (Component.Alike R) (Component.stack kept c) (Component.stack kept' c') := by
  cases hc with
  | current => simpa [Component.stack] using hkept
  | root => simpa [Component.stack] using ⟨.root, hkept⟩
  | name h => simpa [Component.stack] using ⟨.name h, hkept⟩
  | parent =>
    cases hkept with
    | nil => exact .cons .parent .nil
    | cons hd hbelow =>
      cases hd with
      | root => exact .cons .root hbelow
      | current => exact .cons .parent (.cons .current hbelow)
      | parent => exact .cons .parent (.cons .parent hbelow)
      | name _ => exact hbelow

/-- Components that are alike are written alike. -/
theorem forall₂_slashed {cs ds : List Component}
    (h : List.Forall₂ (Component.Alike R) cs ds) :
    List.Forall₂ R (Path.slashed cs) (Path.slashed ds) := by
  have htext : ∀ {c d : Component}, Component.Alike R c d → List.Forall₂ R c.text d.text := by
    intro c d hcd
    cases hcd with
    | name h => exact h
    | root | current | parent => exact hR.forall₂_refl _
  induction h with
  | nil => exact .nil
  | cons hcd hrest ih =>
    cases hrest with
    | nil => exact htext hcd
    | cons _ _ => exact List.rel_append (htext hcd) (.cons (hR.refl '/') ih)

/-- Paths that agree place by place have normal forms that do. -/
theorem forall₂_normalise {p q : Path} (h : List.Forall₂ R p.spelling q.spelling) :
    List.Forall₂ R p.normalise.spelling q.normalise.spelling := by
  have hsteps : List.Forall₂ (Component.Alike R) p.steps q.steps := by
    refine List.rel_append ?_ (hR.forall₂_componentsOf h)
    rw [Path.rootStep, Path.rootStep, hR.isAbsolute_eq h]
    split
    next => exact .cons .root .nil
    next => exact .nil
  have hstack : (List.Forall₂ (Component.Alike R) ⇒ Component.Alike R ⇒
      List.Forall₂ (Component.Alike R)) Component.stack Component.stack :=
    fun _ _ hkept _ _ hc => forall₂_stack hkept hc
  have hleft : List.Forall₂ (Component.Alike R) (Component.collapse p.steps)
      (Component.collapse q.steps) :=
    List.rel_reverse (List.rel_foldl hstack .nil hsteps)
  rw [Path.normalise_eq, Path.normalise_eq]
  generalize Component.collapse p.steps = cs at hleft
  generalize Component.collapse q.steps = ds at hleft
  cases hleft with
  | nil => exact .nil
  | cons hcd hrest =>
    cases hcd with
    | root => exact .cons (hR.refl '/') (hR.forall₂_slashed hrest)
    | current => exact hR.forall₂_slashed (.cons .current hrest)
    | parent => exact hR.forall₂_slashed (.cons .parent hrest)
    | name h => exact hR.forall₂_slashed (.cons (.name h) hrest)

/-- Paths that are alike are joined alike. -/
theorem forall₂_join (base : Path) {p q : Path} (h : List.Forall₂ R p.spelling q.spelling) :
    List.Forall₂ R (base.join p).spelling (base.join q).spelling := by
  rw [Path.join, Path.join, hR.isAbsolute_eq h]
  split
  next => exact h
  next => exact List.rel_append (hR.forall₂_refl _) h

end KeepsMarks

/-! ## Letter case -/

/-- Letters that are one in lower case tell the marks of a path apart from the rest. -/
theorem Text.keepsMarks : KeepsMarks fun c d => lowerChar c = lowerChar d where
  refl _ := rfl
  slash h := eq_sign_iff h (by decide +kernel) (by decide)
  dot h := eq_sign_iff h (by decide +kernel) (by decide)

namespace CanonicalKey

open Text (SameLetters)

variable {cwd : Path} {a b : List Char}

/-- Unifying slashes keeps texts alike. -/
theorem sameLetters_unifySlashes (h : SameLetters a b) :
    SameLetters (unifySlashes a) (unifySlashes b) := by
  refine List.rel_map ?_ h
  intro c d hcd
  have hback : c = '\\' ↔ d = '\\' :=
    Text.eq_sign_iff hcd (by decide +kernel) (by decide)
  show Text.lowerChar (if c = '\\' then '/' else c) = Text.lowerChar (if d = '\\' then '/' else d)
  simp only [hback]
  split
  next => rfl
  next => exact hcd

/-- Names that differ in letter case only, both on a drive or both on none, stand for places that
do. -/
theorem sameLetters_place (h : SameLetters a b) (hdrive : startsOnDrive a = startsOnDrive b) :
    SameLetters (place cwd a).normalise.spelling (place cwd b).normalise.spelling := by
  have hunify := sameLetters_unifySlashes h
  have hrooted : isRooted (unifySlashes a) = isRooted (unifySlashes b) := by
    have habs := Text.keepsMarks.isAbsolute_eq (p := ⟨unifySlashes a⟩) (q := ⟨unifySlashes b⟩) hunify
    unfold Path.isAbsolute at habs
    rw [isRooted_eq, isRooted_eq, startsOnDrive_unifySlashes, startsOnDrive_unifySlashes, hdrive,
      habs]
  refine Text.keepsMarks.forall₂_normalise ?_
  rw [place, place, hrooted]
  split
  next => exact hunify
  next => exact Text.keepsMarks.forall₂_join cwd hunify

/-- A key starts with a slash if its name is on no drive. -/
theorem head?_of_iff (habs : cwd.isAbsolute = true) (name : List Char) :
    (of .insensitive cwd name).text.head? = some '/' ↔ startsOnDrive name = false := by
  have hroot := Path.isAbsolute_normalise (place cwd name)
  rw [isAbsolute_place habs, Path.isAbsolute] at hroot
  have hlower : (of .insensitive cwd name).text.head? = some '/' ↔
      (unifySlashes (place cwd name).normalise.spelling).head? = some '/' :=
    Text.head?_lowerCase_iff (by decide +kernel) (by decide) _
  rw [hlower]
  cases hdrive : startsOnDrive name with
  | false =>
    rw [hdrive] at hroot
    obtain ⟨rest, hspell⟩ := List.head?_eq_some_iff.mp (beq_iff_eq.mp hroot)
    rw [hspell]
    simp [unifySlashes]
  | true =>
    -- on a drive there is no backslash left that could be read as a slash
    have hplain : '\\' ∉ (place cwd name).spelling := by
      rw [place_of_startsOnDrive hdrive]
      exact not_mem_unifySlashes name
    rw [hdrive] at hroot
    rw [unifySlashes_normalise hplain]
    simpa using hroot

end CanonicalKey

/-- **When letter case makes no difference.** Where the file system does not tell cases apart, two
names whose characters have the same lower case place by place have one key exactly if both or none
of them are on a drive, and the same capital sigmas end a word in the places they stand for. -/
theorem caseless_keys_eq_iff {cwd : Path} (habs : cwd.isAbsolute = true) {a b : List Char}
    (h : Text.SameLetters a b) :
    CanonicalKey.of .insensitive cwd a = CanonicalKey.of .insensitive cwd b ↔
      startsOnDrive a = startsOnDrive b ∧
      ∀ i, Text.IsFinalSigma (CanonicalKey.of .sensitive cwd a).text i ↔
        Text.IsFinalSigma (CanonicalKey.of .sensitive cwd b).text i := by
  have hlower : startsOnDrive a = startsOnDrive b →
      (CanonicalKey.of .insensitive cwd a = CanonicalKey.of .insensitive cwd b ↔
        ∀ i, Text.IsFinalSigma (CanonicalKey.of .sensitive cwd a).text i ↔
          Text.IsFinalSigma (CanonicalKey.of .sensitive cwd b).text i) := by
    intro hdrive
    rw [CanonicalKey.of_eq, CanonicalKey.of_eq, CanonicalKey.mk.injEq]
    exact (CanonicalKey.sameLetters_unifySlashes
      (CanonicalKey.sameLetters_place h hdrive)).lowerCase_eq_iff
  constructor
  · intro heq
    have hdrive : startsOnDrive a = startsOnDrive b := by
      have hhead := CanonicalKey.head?_of_iff habs a
      rw [heq, CanonicalKey.head?_of_iff habs b] at hhead
      rw [← Bool.not_inj_iff, Bool.eq_iff_iff]
      simpa using hhead.symm
    exact ⟨hdrive, (hlower hdrive).mp heq⟩
  · rintro ⟨hdrive, hsigmas⟩
    exact (hlower hdrive).mpr hsigmas

/-- A capital sigma at the end of a word parts two names that differ in letter case only, and so
does a Kelvin sign in the place of the letter of a drive. Names with neither have one key. -/
theorem sigma_parts_caseless_keys :
    ∃ (proj : Path) (upper lower kelvin letter mixed plain : List Char),
      proj = ⟨"/proj".toList⟩ ∧ proj.isAbsolute = true ∧
      upper = "ΟΔΟΣ/a.ts".toList ∧ lower = "οδοσ/a.ts".toList ∧ Text.SameLetters upper lower ∧
      Text.IsFinalSigma (CanonicalKey.of .sensitive proj upper).text 9 ∧
      CanonicalKey.of .insensitive proj upper ≠ CanonicalKey.of .insensitive proj lower ∧
      kelvin = "\u212a:/a.ts".toList ∧ letter = "K:/a.ts".toList ∧ Text.SameLetters kelvin letter ∧
      CanonicalKey.of .insensitive proj kelvin ≠ CanonicalKey.of .insensitive proj letter ∧
      mixed = "Src\\Δ.TS".toList ∧ plain = "src\\δ.ts".toList ∧ Text.SameLetters mixed plain ∧
      CanonicalKey.of .insensitive proj mixed = CanonicalKey.of .insensitive proj plain := by
  have habs : (⟨"/proj".toList⟩ : Path).isAbsolute = true := by decide
  have hsigma : Text.SameLetters "ΟΔΟΣ/a.ts".toList "οδοσ/a.ts".toList := by decide +kernel
  have hkelvin : Text.SameLetters "\u212a:/a.ts".toList "K:/a.ts".toList := by decide +kernel
  have hplain : Text.SameLetters "Src\\Δ.TS".toList "src\\δ.ts".toList := by decide +kernel
  have hfinal : Text.IsFinalSigma
      (CanonicalKey.of .sensitive ⟨"/proj".toList⟩ "ΟΔΟΣ/a.ts".toList).text 9 := by decide +kernel
  refine ⟨_, _, _, _, _, _, _, rfl, habs, rfl, rfl, hsigma, hfinal, ?_, rfl, rfl, hkelvin, ?_,
    rfl, rfl, hplain, ?_⟩
  · intro heq
    exact absurd ((((caseless_keys_eq_iff habs hsigma).mp heq).2 9).mp hfinal) (by decide)
  · intro heq
    exact absurd ((caseless_keys_eq_iff habs hkelvin).mp heq).1 (by decide)
  · refine (caseless_keys_eq_iff habs hplain).mpr ⟨by decide, fun i => ?_⟩
    -- there is no sigma in either of them
    have hnone : ∀ {s : List Char}, 'Σ' ∉ s → ¬ Text.IsFinalSigma s i :=
      fun hs h => hs (List.mem_of_getElem? h.1)
    exact iff_of_false (hnone (by decide)) (hnone (by decide))

end NameResolution
