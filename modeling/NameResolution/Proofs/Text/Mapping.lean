import Mathlib.Data.List.Basic
import NameResolution.Text.LowerCase

/-!
# What the lower-case mapping does to characters

The mapping is a table of runs, and the letters and marks around a place are known from
tables of ranges. What the theory needs of the tables is checked run by run, on the ends of
runs and ranges, and then said of characters: a mapped character is mapped to itself
(`lowerChar_of_mem`), nothing is mapped to a sign up to the backslash but that sign itself
(`eq_of_mem_lowerChar`), and characters with one lower case are told apart neither as
letters nor as marks inside a word (`properties_congr`).
-/

namespace NameResolution.Text

/-! ## Ranges -/

/-- Do the code points from `lo` to `hi` lie in one range? -/
def meets (ranges : List (Nat × Nat)) (lo hi : Nat) : Bool :=
  ranges.any fun g => Nat.ble g.1 lo && Nat.ble hi g.2

/-- Are the code points from `lo` to `hi` between two ranges? The ranges are read up to the
first one above. -/
def skips : List (Nat × Nat) → Nat → Nat → Bool
  | [], _, _ => true
  | g :: rest, lo, hi => Nat.blt hi g.1 || (Nat.blt g.2 lo && skips rest lo hi)

/-- What is between the bounds is in the ranges that cover them. -/
theorem inRanges_of_meets {ranges : List (Nat × Nat)} {lo hi : Nat}
    (h : meets ranges lo hi = true) {c : Char} (hlo : lo ≤ c.toNat) (hhi : c.toNat ≤ hi) :
    inRanges ranges c = true := by
  obtain ⟨g, hg, hends⟩ := List.any_eq_true.mp h
  rw [Bool.and_eq_true, Nat.ble_eq, Nat.ble_eq] at hends
  refine List.any_eq_true.mpr ⟨g, hg, ?_⟩
  simp only [Bool.and_eq_true, decide_eq_true_eq]
  omega

/-- What is between the bounds is in none of the ranges that leave them out. -/
theorem inRanges_of_skips {lo hi : Nat} {c : Char} (hlo : lo ≤ c.toNat) (hhi : c.toNat ≤ hi) :
    ∀ {ranges : List (Nat × Nat)}, ranges.Pairwise (fun g h => g.1 ≤ h.1) →
      skips ranges lo hi = true → inRanges ranges c = false
  | [], _, _ => rfl
  | g :: rest, hsorted, h => by
    obtain ⟨hg, hrest⟩ := List.pairwise_cons.mp hsorted
    rw [skips, Bool.or_eq_true, Bool.and_eq_true, Nat.blt_eq, Nat.blt_eq] at h
    rcases h with habove | ⟨hbelow, hskips⟩
    · -- the ranges behind the first one above are above, too
      rw [inRanges, List.any_eq_false]
      intro k hk
      have hk1 : g.1 ≤ k.1 := by
        rcases List.mem_cons.mp hk with rfl | hk
        · exact Nat.le_refl _
        · exact hg k hk
      simp only [Bool.and_eq_true, decide_eq_true_eq]
      omega
    · have ih := inRanges_of_skips hlo hhi hrest hskips
      rw [inRanges, List.any_cons, Bool.or_eq_false_iff]
      refine ⟨?_, ih⟩
      simp only [Bool.and_eq_false_iff, decide_eq_false_iff_not]
      omega

/-- A list in which each is at most the next is sorted. -/
theorem pairwise_of_isChain {α : Type} {f : α → Nat} {l : List α}
    (h : l.IsChain fun a b => f a ≤ f b) : l.Pairwise fun a b => f a ≤ f b := by
  have htrans : Trans (fun a b : α => f a ≤ f b) (fun a b => f a ≤ f b) (fun a b => f a ≤ f b) :=
    ⟨Nat.le_trans⟩
  exact List.isChain_iff_pairwise.mp h

/-! ## Runs -/

namespace CaseRun

/-- The code point that the run's first character is moved to. -/
def lowest (r : CaseRun) : Nat := (r.first + r.shift).toNat

/-- The code point that the run's last character is moved to. -/
def highest (r : CaseRun) : Nat := (r.last + r.shift).toNat

/-- Do the run's characters lie in the ranges: all of them in one, or each in one? -/
def liesIn (ranges : List (Nat × Nat)) (r : CaseRun) : Bool :=
  meets ranges r.first r.last ||
    (List.range (r.last + 1)).all fun n => !r.holds n || meets ranges n n

/-- Are the targets of a run, from `lo` to `hi` in steps of `stride`, outside the runs? The runs
are read up to the first one above; a run of every second code point may have the others as its
targets. -/
def passes (lo hi stride : Nat) : List CaseRun → Bool
  | [] => true
  | r :: rest =>
    Nat.blt hi r.first ||
      ((Nat.blt r.last lo ||
        r.stride == 2 && (stride == 2 || lo == hi) && (lo + r.first) % 2 == 1) &&
        passes lo hi stride rest)

/-- The run moves `c` to `x`. -/
structure Moves (r : CaseRun) (c x : Char) : Prop where
  mem : r ∈ caseRuns
  holds : r.holds c.toNat = true
  target : x.toNat = (c.toNat + r.shift).toNat

end CaseRun

theorem caseRuns_sorted : caseRuns.Pairwise fun r s => r.first ≤ s.first :=
  pairwise_of_isChain (by decide +kernel)

theorem caseIgnorableRanges_sorted : caseIgnorableRanges.Pairwise fun g h => g.1 ≤ h.1 :=
  pairwise_of_isChain (by decide +kernel)

/-! What the tables say of the runs, checked on the ends of each. -/

/-- Every run leads to characters. -/
theorem caseRuns_valid : ∀ r ∈ caseRuns,
    r.highest < 0xD800 ∨ 0xDFFF < r.lowest ∧ r.highest < 0x110000 := by
  decide +kernel

/-- Every run leads above the marks of a path, and past the one letter that becomes two. -/
theorem caseRuns_above : ∀ r ∈ caseRuns,
    0x5C < r.lowest ∧ (r.highest < 0x130 ∨ 0x130 < r.lowest) := by
  decide +kernel

/-- No run leads to a letter that is moved again. -/
theorem caseRuns_passes :
    ∀ r ∈ caseRuns, CaseRun.passes r.lowest r.highest r.stride caseRuns = true := by
  decide +kernel

/-- Every run leads from cased letters to cased letters. -/
theorem caseRuns_cased : ∀ r ∈ caseRuns,
    r.liesIn casedRanges = true ∧ meets casedRanges r.lowest r.highest = true := by
  decide +kernel

/-- No run leads from or to a letter that is passed over for a final sigma. -/
theorem caseRuns_not_ignorable : ∀ r ∈ caseRuns,
    skips caseIgnorableRanges r.first r.last = true ∧
      skips caseIgnorableRanges r.lowest r.highest = true := by
  decide +kernel

/-! ## Moved characters -/

namespace CaseRun.Moves

variable {r : CaseRun} {c x : Char}

theorem bounds (h : r.Moves c x) :
    r.first ≤ c.toNat ∧ c.toNat ≤ r.last ∧ (c.toNat - r.first) % r.stride = 0 := by
  have hholds := h.holds
  simp only [CaseRun.holds, Bool.and_eq_true, decide_eq_true_eq, beq_iff_eq] at hholds
  exact ⟨hholds.1.1, hholds.1.2, hholds.2⟩

theorem target_bounds (h : r.Moves c x) : r.lowest ≤ x.toNat ∧ x.toNat ≤ r.highest := by
  obtain ⟨hfirst, hlast, -⟩ := h.bounds
  rw [h.target, CaseRun.lowest, CaseRun.highest]
  omega

/-- Nothing is moved to a sign up to the backslash. -/
theorem target_above (h : r.Moves c x) : 0x5C < x.toNat :=
  Nat.lt_of_lt_of_le (caseRuns_above r h.mem).1 h.target_bounds.1

/-- No target of a run that passes the runs by is in one of them. -/
theorem not_holds (h : r.Moves c x) :
    ∀ {runs : List CaseRun}, runs.Pairwise (fun r s => r.first ≤ s.first) →
      CaseRun.passes r.lowest r.highest r.stride runs = true →
      ∀ s ∈ runs, s.holds x.toNat = false
  | [], _, _ => by simp
  | s :: rest, hsorted, hpasses => by
    obtain ⟨hs, hrest⟩ := List.pairwise_cons.mp hsorted
    obtain ⟨hlo, hhi⟩ := h.target_bounds
    rw [CaseRun.passes, Bool.or_eq_true, Bool.and_eq_true, Nat.blt_eq] at hpasses
    rcases hpasses with habove | ⟨hpast, hpasses⟩
    · intro k hk
      have hk1 : s.first ≤ k.first := by
        rcases List.mem_cons.mp hk with rfl | hk
        · exact Nat.le_refl _
        · exact hs k hk
      simp only [CaseRun.holds, Bool.and_eq_false_iff, decide_eq_false_iff_not]
      omega
    · intro k hk
      rcases List.mem_cons.mp hk with rfl | hk
      · simp only [Bool.or_eq_true, Bool.and_eq_true, beq_iff_eq, Nat.blt_eq] at hpast
        simp only [CaseRun.holds, Bool.and_eq_false_iff, decide_eq_false_iff_not,
          beq_eq_false_iff_ne]
        rcases hpast with hbelow | ⟨⟨hstride, hsteps⟩, hodd⟩
        · omega
        · -- the target is an even number of steps from the lowest one, which is not in the run
          obtain ⟨hfirst, hlast, hstep⟩ := h.bounds
          have hpos : 0x5C < r.lowest := (caseRuns_above r h.mem).1
          have heven : (x.toNat - r.lowest) % 2 = 0 := by
            rcases hsteps with htwo | hsingle
            · rw [htwo] at hstep
              rw [h.target]
              unfold CaseRun.lowest at hpos ⊢
              omega
            · omega
          rw [hstride]
          omega
      · exact not_holds h hrest hpasses k hk

theorem cased (h : r.Moves c x) : isCased c = true ∧ isCased x = true := by
  obtain ⟨hfirst, hlast, -⟩ := h.bounds
  obtain ⟨hlo, hhi⟩ := h.target_bounds
  obtain ⟨hsource, htarget⟩ := caseRuns_cased r h.mem
  refine ⟨?_, inRanges_of_meets htarget hlo hhi⟩
  rw [CaseRun.liesIn, Bool.or_eq_true] at hsource
  rcases hsource with hwhole | heach
  · exact inRanges_of_meets hwhole hfirst hlast
  · have hc := List.all_eq_true.mp heach c.toNat (List.mem_range.mpr (by omega))
    rw [h.holds, Bool.not_true, Bool.false_or] at hc
    exact inRanges_of_meets hc (Nat.le_refl _) (Nat.le_refl _)

theorem not_ignorable (h : r.Moves c x) :
    isCaseIgnorable c = false ∧ isCaseIgnorable x = false := by
  obtain ⟨hfirst, hlast, -⟩ := h.bounds
  obtain ⟨hlo, hhi⟩ := h.target_bounds
  obtain ⟨hsource, htarget⟩ := caseRuns_not_ignorable r h.mem
  exact ⟨inRanges_of_skips hfirst hlast caseIgnorableRanges_sorted hsource,
    inRanges_of_skips hlo hhi caseIgnorableRanges_sorted htarget⟩

end CaseRun.Moves

/-! ## The mapping -/

theorem lowerChar_of_not_holds {c : Char} (hc : c ≠ '\u0130')
    (h : ∀ r ∈ caseRuns, r.holds c.toNat = false) : lowerChar c = [c] := by
  have hnone : caseRuns.find? (·.holds c.toNat) = none :=
    List.find?_eq_none.mpr fun r hr => by simp [h r hr]
  rw [lowerChar, if_neg hc, hnone]

/-- A character stays, is moved by a run, or is the dotted capital that becomes two. -/
theorem lowerChar_cases (c : Char) :
    lowerChar c = [c] ∨ (∃ r x, CaseRun.Moves r c x ∧ lowerChar c = [x]) ∨
      c = '\u0130' ∧ lowerChar c = ['i', '\u0307'] := by
  by_cases hc : c = '\u0130'
  · exact .inr (.inr ⟨hc, by rw [lowerChar, if_pos hc]⟩)
  · cases hfind : caseRuns.find? (·.holds c.toNat) with
    | none =>
      exact .inl (by rw [lowerChar, if_neg hc, hfind])
    | some r =>
      have hmem := List.mem_of_find?_eq_some hfind
      have hholds : r.holds c.toNat = true := by simpa using List.find?_some hfind
      refine .inr (.inl ⟨r, Char.ofNat (c.toNat + r.shift).toNat, ⟨hmem, hholds, ?_⟩, ?_⟩)
      · -- the target is a character, since the ends of the run are moved to characters
        have hvalid := caseRuns_valid r hmem
        simp only [CaseRun.holds, Bool.and_eq_true, decide_eq_true_eq] at hholds
        unfold CaseRun.lowest CaseRun.highest at hvalid
        have hchar : (c.toNat + r.shift).toNat.isValidChar := by
          unfold Nat.isValidChar
          omega
        rw [Char.ofNat, dif_pos hchar]
        rfl
      · rw [lowerChar, if_neg hc, hfind]

theorem lowerChar_ne_nil (c : Char) : lowerChar c ≠ [] := by
  rcases lowerChar_cases c with h | ⟨r, x, -, h⟩ | ⟨-, h⟩ <;> simp [h]

/-- What a character is mapped to is mapped to itself. -/
theorem lowerChar_of_mem {c x : Char} (h : x ∈ lowerChar c) : lowerChar x = [x] := by
  rcases lowerChar_cases c with hc | ⟨r, y, hmoves, hc⟩ | ⟨-, hc⟩
  · rw [hc, List.mem_singleton] at h
    rw [h, hc]
  · rw [hc, List.mem_singleton] at h
    subst h
    refine lowerChar_of_not_holds ?_
      (hmoves.not_holds caseRuns_sorted (caseRuns_passes r hmoves.mem))
    rintro rfl
    have habove := (caseRuns_above r hmoves.mem).2
    obtain ⟨hlo, hhi⟩ := hmoves.target_bounds
    have hdotted : ('\u0130').toNat = 0x130 := rfl
    omega
  · rw [hc] at h
    simp only [List.mem_cons, List.not_mem_nil, or_false] at h
    rcases h with rfl | rfl <;> decide +kernel

/-- Nothing but a sign up to the backslash itself is mapped to it. -/
theorem eq_of_mem_lowerChar {c x : Char} (h : x ∈ lowerChar c) (hx : x.toNat ≤ 0x5C) : x = c := by
  rcases lowerChar_cases c with hc | ⟨r, y, hmoves, hc⟩ | ⟨-, hc⟩
  · rwa [hc, List.mem_singleton] at h
  · rw [hc, List.mem_singleton] at h
    subst h
    exact absurd hmoves.target_above (by omega)
  · rw [hc] at h
    simp only [List.mem_cons, List.not_mem_nil, or_false] at h
    rcases h with rfl | rfl <;> exact absurd hx (by decide)

/-- Of two characters with one lower case, either both or neither are a sign up to the backslash that
is its own lower case. -/
theorem eq_sign_iff {c d sign : Char} (h : lowerChar c = lowerChar d)
    (hsign : lowerChar sign = [sign]) (hle : sign.toNat ≤ 0x5C) : c = sign ↔ d = sign := by
  have hother : ∀ {c d : Char}, lowerChar c = lowerChar d → c = sign → d = sign := by
    rintro c d h rfl
    have hmem : c ∈ lowerChar d := by
      rw [← h, hsign]
      exact List.mem_singleton_self c
    exact (eq_of_mem_lowerChar hmem hle).symm
  exact ⟨hother h, hother h.symm⟩

/-- A character that is mapped to a single one has the same letter properties as that one. -/
theorem properties_lowerChar {c x : Char} (h : lowerChar c = [x]) :
    isCased x = isCased c ∧ isCaseIgnorable x = isCaseIgnorable c := by
  rcases lowerChar_cases c with hc | ⟨r, y, hmoves, hc⟩ | ⟨-, hc⟩
  · rw [hc, List.singleton_inj] at h
    rw [h]
    exact ⟨rfl, rfl⟩
  · rw [hc, List.singleton_inj] at h
    subst h
    rw [hmoves.cased.1, hmoves.cased.2, hmoves.not_ignorable.1, hmoves.not_ignorable.2]
    exact ⟨rfl, rfl⟩
  · rw [hc] at h
    simp at h

/-- Characters with one lower case have the same letter properties. -/
theorem properties_congr {c d : Char} (h : lowerChar c = lowerChar d) :
    isCased c = isCased d ∧ isCaseIgnorable c = isCaseIgnorable d := by
  have hsingle : ∀ {x : Char}, lowerChar c = [x] →
      isCased c = isCased d ∧ isCaseIgnorable c = isCaseIgnorable d := by
    intro x hx
    obtain ⟨hc1, hc2⟩ := properties_lowerChar hx
    obtain ⟨hd1, hd2⟩ := properties_lowerChar (h ▸ hx)
    exact ⟨hc1.symm.trans hd1, hc2.symm.trans hd2⟩
  rcases lowerChar_cases c with hc | ⟨r, x, -, hc⟩ | ⟨hc, htwo⟩
  · exact hsingle hc
  · exact hsingle hc
  · -- only the dotted capital becomes two
    rw [htwo] at h
    rcases lowerChar_cases d with hd | ⟨r, x, -, hd⟩ | ⟨hd, -⟩
    · rw [hd] at h
      simp at h
    · rw [hd] at h
      simp at h
    · rw [hc, hd]
      exact ⟨rfl, rfl⟩

end NameResolution.Text
