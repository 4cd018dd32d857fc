import NameResolution.Proofs.Text.Mapping

/-!
# Lower case of whole texts

Lower-casing a text is done once and for all (`lowerCase_lowerCase`), and it is done between
slashes: a slash is neither a letter nor a mark inside a word, so that no place looks past
it (`lowerCase_append_slash`).
-/

namespace NameResolution.Text

/-! ## What a place becomes -/

/-- What the character `c` becomes between `before` (nearest character first) and `after`. -/
def lowerAt (before : List Char) (c : Char) (after : List Char) : List Char :=
  if c = 'Σ' then [lowerSigma before after] else lowerChar c

theorem lowerAfter_cons (before : List Char) (c : Char) (after : List Char) :
    lowerAfter before (c :: after) =
      lowerAt before c after ++ lowerAfter (c :: before) after := rfl

theorem lowerChar_sigma : lowerChar 'Σ' = ['σ'] := by decide +kernel

theorem lowerSigma_cases (before after : List Char) :
    lowerSigma before after = 'ς' ∨ lowerSigma before after = 'σ' := by
  unfold lowerSigma
  split
  next => exact .inl rfl
  next => exact .inr rfl

theorem lowerAt_ne_nil (before : List Char) (c : Char) (after : List Char) :
    lowerAt before c after ≠ [] := by
  unfold lowerAt
  split
  next => simp
  next => exact lowerChar_ne_nil c

/-- What a place becomes stays as it is. -/
theorem lowerChar_of_mem_lowerAt {before after : List Char} {c x : Char}
    (h : x ∈ lowerAt before c after) : lowerChar x = [x] := by
  unfold lowerAt at h
  split at h
  next =>
    rw [List.mem_singleton] at h
    rcases lowerSigma_cases before after with hs | hs <;> rw [h, hs] <;> decide +kernel
  next => exact lowerChar_of_mem h

/-- No place becomes a sign up to the backslash that was not there. -/
theorem eq_of_mem_lowerAt {before after : List Char} {c x : Char}
    (h : x ∈ lowerAt before c after) (hx : x.toNat ≤ 0x5C) : x = c := by
  unfold lowerAt at h
  split at h
  next =>
    rw [List.mem_singleton] at h
    rcases lowerSigma_cases before after with hs | hs <;>
      exact absurd hx (by rw [h, hs]; decide)
  next => exact eq_of_mem_lowerChar h hx

/-- A sign up to the backslash stays, wherever it stands. -/
theorem lowerAt_of_fixed {c : Char} (hc : lowerChar c = [c]) (before after : List Char) :
    lowerAt before c after = [c] := by
  have hne : c ≠ 'Σ' := by
    rintro rfl
    rw [lowerChar_sigma] at hc
    exact absurd hc (by decide)
  rw [lowerAt, if_neg hne, hc]

/-! ## What a text becomes -/

theorem lowerChar_of_mem_lowerAfter {x : Char} :
    ∀ {s before : List Char}, x ∈ lowerAfter before s → lowerChar x = [x]
  | [], _, h => by cases h
  | c :: s, before, h => by
    rw [lowerAfter_cons, List.mem_append] at h
    rcases h with h | h
    · exact lowerChar_of_mem_lowerAt h
    · exact lowerChar_of_mem_lowerAfter h

theorem mem_of_mem_lowerAfter {x : Char} (hx : x.toNat ≤ 0x5C) :
    ∀ {s before : List Char}, x ∈ lowerAfter before s → x ∈ s
  | [], _, h => by cases h
  | c :: s, before, h => by
    rw [lowerAfter_cons, List.mem_append] at h
    rcases h with h | h
    · rw [eq_of_mem_lowerAt h hx]
      exact List.mem_cons_self
    · exact List.mem_cons_of_mem _ (mem_of_mem_lowerAfter hx h)

/-- A text of characters that are their own lower case stays as it is. -/
theorem lowerAfter_of_fixed : ∀ {s : List Char} (before : List Char),
    (∀ c ∈ s, lowerChar c = [c]) → lowerAfter before s = s
  | [], _, _ => rfl
  | c :: s, before, h => by
    rw [lowerAfter_cons, lowerAt_of_fixed (h c List.mem_cons_self),
      lowerAfter_of_fixed (c :: before) fun d hd => h d (List.mem_cons_of_mem _ hd)]
    rfl

/-- Lower-casing is done once and for all. -/
theorem lowerCase_lowerCase (s : List Char) : lowerCase (lowerCase s) = lowerCase s :=
  lowerAfter_of_fixed [] fun _ hx => lowerChar_of_mem_lowerAfter hx

/-- A text that becomes one of signs up to the backslash stays as it is. -/
theorem lowerAfter_of_signs : ∀ {s before : List Char},
    (∀ x ∈ lowerAfter before s, x.toNat ≤ 0x5C) → lowerAfter before s = s
  | [], _, _ => rfl
  | c :: s, before, h => by
    rw [lowerAfter_cons] at h ⊢
    obtain ⟨x, hx⟩ := List.exists_mem_of_ne_nil _ (lowerAt_ne_nil before c s)
    have hxc : x = c := eq_of_mem_lowerAt hx (h x (List.mem_append_left _ hx))
    rw [lowerAt_of_fixed (hxc ▸ lowerChar_of_mem_lowerAt hx),
      lowerAfter_of_signs fun y hy => h y (List.mem_append_right _ hy)]
    rfl

/-- Nothing but a text of signs up to the backslash itself is lowered to it. -/
theorem eq_of_lowerCase_eq {s t : List Char} (h : lowerCase s = t)
    (ht : ∀ x ∈ t, x.toNat ≤ 0x5C) : s = t := by
  subst h
  exact (lowerAfter_of_signs ht).symm

/-- A text is lowered to one that starts with a sign just if it starts with it. -/
theorem head?_lowerCase_iff {sign : Char} (hsign : lowerChar sign = [sign])
    (hle : sign.toNat ≤ 0x5C) (s : List Char) :
    (lowerCase s).head? = some sign ↔ s.head? = some sign := by
  cases s with
  | nil => rfl
  | cons c s =>
    obtain ⟨x, xs, hx⟩ := List.exists_cons_of_ne_nil (lowerAt_ne_nil [] c s)
    have hhead : (lowerCase (c :: s)).head? = some x := by
      rw [lowerCase, lowerAfter_cons, hx]
      rfl
    rw [hhead, List.head?_cons, Option.some_inj, Option.some_inj]
    constructor
    · rintro rfl
      have hmem : x ∈ lowerAt [] c s := by
        rw [hx]
        exact List.mem_cons_self
      exact (eq_of_mem_lowerAt hmem hle).symm
    · rintro rfl
      rw [lowerAt_of_fixed hsign, List.cons.injEq] at hx
      exact hx.1.symm

/-! ## Between slashes -/

theorem meetsCased_cons (c : Char) (s : List Char) :
    meetsCased (c :: s) = if isCaseIgnorable c then meetsCased s else isCased c := by
  cases h : isCaseIgnorable c <;> simp [meetsCased, h]

theorem meetsCased_append_slash (s t : List Char) : meetsCased (s ++ '/' :: t) = meetsCased s := by
  induction s with
  | nil =>
    have hmark : isCaseIgnorable '/' = false := by decide +kernel
    have hletter : isCased '/' = false := by decide +kernel
    rw [List.nil_append, meetsCased_cons, hmark, hletter]
    rfl
  | cons c s ih => rw [List.cons_append, meetsCased_cons, meetsCased_cons, ih]

/-- What stands behind a slash before a place plays no part. -/
theorem lowerAfter_behind_slash (past : List Char) : ∀ (s before : List Char),
    lowerAfter (before ++ '/' :: past) s = lowerAfter before s
  | [], _ => rfl
  | c :: s, before => by
    have ih := lowerAfter_behind_slash past s (c :: before)
    rw [lowerAfter_cons, lowerAfter_cons, lowerAt, lowerAt, lowerSigma, lowerSigma,
      meetsCased_append_slash, ← ih]
    rfl

/-- What a slash keeps apart is lowered apart. -/
theorem lowerAfter_append_slash (t : List Char) : ∀ (s before : List Char),
    lowerAfter before (s ++ '/' :: t) = lowerAfter before s ++ '/' :: lowerCase t
  | [], before => by
    have hslash : lowerChar '/' = ['/'] := by decide +kernel
    have hpast := lowerAfter_behind_slash before t []
    rw [List.nil_append] at hpast ⊢
    rw [lowerAfter_cons, lowerAt_of_fixed hslash, hpast]
    rfl
  | c :: s, before => by
    rw [List.cons_append, lowerAfter_cons, lowerAfter_cons, lowerAfter_append_slash t s,
      lowerAt, lowerAt, lowerSigma, lowerSigma, meetsCased_append_slash, List.append_assoc]

/-- Lower-casing is done between slashes. -/
theorem lowerCase_append_slash (s t : List Char) :
    lowerCase (s ++ '/' :: t) = lowerCase s ++ '/' :: lowerCase t :=
  lowerAfter_append_slash t s []

end NameResolution.Text
