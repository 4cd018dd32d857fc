import NameResolution.Proofs.Text.LowerCase

/-!
# Texts that differ in letter case only

Lower case goes character by character, but for the capital sigma, which becomes the final
sigma at the end of a word. Two texts whose characters have the same lower case place by
place therefore have the same lower case as a whole exactly if the same capital sigmas end
a word in both (`lowerCase_eq_iff`): what surrounds a place is the same in both, because
characters with one lower case have the same letter properties.
-/

namespace NameResolution.Text

/-- The texts differ in letter case only: place by place, their characters have the same lower
case. -/
def SameLetters (s t : List Char) : Prop :=
  List.Forall₂ (fun c d => lowerChar c = lowerChar d) s t

instance (s t : List Char) : Decidable (SameLetters s t) :=
  inferInstanceAs (Decidable (List.Forall₂ _ s t))

/-- At place `i` stands a capital sigma that ends a word. -/
def IsFinalSigma (s : List Char) (i : ℕ) : Prop :=
  s[i]? = some 'Σ' ∧ meetsCased (s.take i).reverse = true ∧ meetsCased (s.drop (i + 1)) = false

instance (s : List Char) (i : ℕ) : Decidable (IsFinalSigma s i) :=
  inferInstanceAs (Decidable (_ ∧ _ ∧ _))

/-! ## Around a place -/

theorem SameLetters.meetsCased_eq {s t : List Char} (h : SameLetters s t) :
    meetsCased s = meetsCased t := by
  induction h with
  | nil => rfl
  | cons hcd _ ih =>
    obtain ⟨hcased, hignorable⟩ := properties_congr hcd
    rw [meetsCased_cons, meetsCased_cons, ih, hcased, hignorable]

theorem SameLetters.lowerSigma_eq {before before' after after' : List Char}
    (hbefore : SameLetters before before') (hafter : SameLetters after after') :
    lowerSigma before after = lowerSigma before' after' := by
  rw [lowerSigma, lowerSigma, hbefore.meetsCased_eq, hafter.meetsCased_eq]

theorem length_lowerAt_eq {c d : Char} (h : lowerChar c = lowerChar d)
    (before before' after after' : List Char) :
    (lowerAt before c after).length = (lowerAt before' d after').length := by
  have hlength : ∀ (e : Char) (before after : List Char),
      (lowerAt before e after).length = (lowerChar e).length := by
    intro e before after
    unfold lowerAt
    split
    next he => rw [he, lowerChar_sigma]; rfl
    next => rfl
  rw [hlength, hlength, h]

/-- Another character with the lower case of the capital sigma becomes what the sigma does, unless
the sigma ends a word. -/
theorem lowerSigma_eq_iff {d : Char} (h : lowerChar 'Σ' = lowerChar d) (before after : List Char) :
    [lowerSigma before after] = lowerChar d ↔ ¬ lowerSigma before after = 'ς' := by
  rw [← h, lowerChar_sigma]
  rcases lowerSigma_cases before after with hs | hs <;> simp [hs]

/-- Characters with one lower case become the same between the same letters exactly if both or
neither of them are a capital sigma that ends a word. -/
theorem lowerAt_eq_iff {before before' after after' : List Char} {c d : Char}
    (hcd : lowerChar c = lowerChar d) (hbefore : SameLetters before before')
    (hafter : SameLetters after after') :
    lowerAt before c after = lowerAt before' d after' ↔
      (c = 'Σ' ∧ lowerSigma before after = 'ς' ↔ d = 'Σ' ∧ lowerSigma before' after' = 'ς') := by
  unfold lowerAt
  rw [hbefore.lowerSigma_eq hafter]
  by_cases hc : c = 'Σ'
  · by_cases hd : d = 'Σ'
    · simp [hc, hd]
    · subst hc
      simp [hd, lowerSigma_eq_iff hcd]
  · by_cases hd : d = 'Σ'
    · subst hd
      rw [if_neg hc, if_pos rfl, eq_comm, lowerSigma_eq_iff hcd.symm]
      simp [hc]
    · simp [hc, hd, hcd]

/-! ## Along a text -/

/-- Place `i` of a text behind the characters `before`, the nearest first, is a capital sigma that
ends a word. -/
def IsFinalSigmaBehind (before s : List Char) (i : ℕ) : Prop :=
  s[i]? = some 'Σ' ∧ meetsCased ((s.take i).reverse ++ before) = true ∧
    meetsCased (s.drop (i + 1)) = false

theorem isFinalSigmaBehind_zero (before : List Char) (c : Char) (s : List Char) :
    IsFinalSigmaBehind before (c :: s) 0 ↔ c = 'Σ' ∧ lowerSigma before s = 'ς' := by
  simp [IsFinalSigmaBehind, lowerSigma]

theorem isFinalSigmaBehind_succ (before : List Char) (c : Char) (s : List Char) (i : ℕ) :
    IsFinalSigmaBehind before (c :: s) (i + 1) ↔ IsFinalSigmaBehind (c :: before) s i := by
  simp [IsFinalSigmaBehind]

/-- The induction is on the two texts at once: their first places become texts of one length, so
that what becomes of the texts is equal place by place. -/
theorem SameLetters.lowerAfter_eq_iff {s t : List Char} (h : SameLetters s t) :
    ∀ {before before' : List Char}, SameLetters before before' →
      (lowerAfter before s = lowerAfter before' t ↔
        ∀ i, IsFinalSigmaBehind before s i ↔ IsFinalSigmaBehind before' t i) := by
  induction h with
  | nil =>
    intro before before' _
    simp [lowerAfter, IsFinalSigmaBehind]
  | @cons c d s t hcd hst ih =>
    intro before before' hbefore
    have hfirst := lowerAt_eq_iff hcd hbefore hst
    have hrest := ih (.cons hcd hbefore)
    have hlength := length_lowerAt_eq hcd before before' s t
    rw [lowerAfter_cons, lowerAfter_cons]
    constructor
    · intro heq i
      obtain ⟨hat, hafter⟩ := List.append_inj heq hlength
      cases i with
      | zero => rw [isFinalSigmaBehind_zero, isFinalSigmaBehind_zero, hfirst.mp hat]
      | succ i => rw [isFinalSigmaBehind_succ, isFinalSigmaBehind_succ, hrest.mp hafter i]
    · intro hall
      have hzero := hall 0
      rw [isFinalSigmaBehind_zero, isFinalSigmaBehind_zero] at hzero
      have hsucc : ∀ i, IsFinalSigmaBehind (c :: before) s i ↔
          IsFinalSigmaBehind (d :: before') t i := by
        intro i
        rw [← isFinalSigmaBehind_succ, ← isFinalSigmaBehind_succ]
        exact hall (i + 1)
      rw [hfirst.mpr hzero, hrest.mpr hsucc]

/-- Texts that differ in letter case only have one lower case exactly if the same capital sigmas
end a word in both. -/
theorem SameLetters.lowerCase_eq_iff {s t : List Char} (h : SameLetters s t) :
    lowerCase s = lowerCase t ↔ ∀ i, IsFinalSigma s i ↔ IsFinalSigma t i := by
  have hbehind : ∀ (s : List Char) (i : ℕ), IsFinalSigmaBehind [] s i ↔ IsFinalSigma s i := by
    intro s i
    rw [IsFinalSigmaBehind, IsFinalSigma, List.append_nil]
  simp only [← hbehind]
  exact h.lowerAfter_eq_iff .nil

end NameResolution.Text
