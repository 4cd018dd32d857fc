import NameResolution.Proofs.Json.Quoted

/-!
# What a quoted text stands for

Strokes stand for characters one by one, except that a character beyond the first plane is written
as a pair of units (`StandsFor`); the halves of a pair stand for nothing alone. A quoted text is read
exactly when its strokes stand for a text, and then as that text (`keptText_eq_ok_iff`).
-/

namespace NameResolution.Json

/-- The strokes stand for the text. -/
inductive StandsFor : List Stroke → List Char → Prop where
  | nil : StandsFor [] []
  | plain (c : Char) (fits : 0x20 ≤ c.toNat ∧ c ≠ '"' ∧ c ≠ '\\') {strokes : List Stroke}
    {text : List Char} (more : StandsFor strokes text) :
    StandsFor (.plain c fits :: strokes) (c :: text)
  | letter (c : Char) (known : c ∈ ['"', '\\', '/', 'b', 'f', 'n', 'r', 't']) {e : Char}
    (h : escaped? c = some e) {strokes : List Stroke} {text : List Char}
    (more : StandsFor strokes text) : StandsFor (.letter c known :: strokes) (e :: text)
  | code {s : Stroke} {unit : ℕ} (hs : s.unit? = some unit) (hlead : isLead unit = false)
    (htrail : isTrail unit = false) {strokes : List Stroke} {text : List Char}
    (more : StandsFor strokes text) : StandsFor (s :: strokes) (Char.ofNat unit :: text)
  | pair {s s' : Stroke} {lead trail : ℕ} (hs : s.unit? = some lead) (hs' : s'.unit? = some trail)
    (hlead : isLead lead = true) (htrail : isTrail trail = true) {strokes : List Stroke}
    {text : List Char} (more : StandsFor strokes text) :
    StandsFor (s :: s' :: strokes) (pairChar lead trail :: text)

/-- What is read of strokes in a mode, up to the closing quote. -/
def keptFrom (m : QuotedMode) (strokes : List Stroke) : Except Fault (List Char) :=
  onlyRead (scanQuoted .kept m (strokes.flatMap Stroke.text ++ ['"']))

/-- What is read of a quoted text. -/
def keptText (strokes : List Stroke) : Except Fault (List Char) := keptFrom .plain strokes

section Strokes

variable {strokes : List Stroke}

theorem keptFrom_cons (m : QuotedMode) (s : Stroke) :
    keptFrom m (s :: strokes) =
      onlyRead (scanQuoted .kept m (s.text ++ (strokes.flatMap Stroke.text ++ ['"']))) := by
  rw [keptFrom, List.flatMap_cons, List.append_assoc]

theorem keptText_plain (c : Char) (fits : 0x20 ≤ c.toNat ∧ c ≠ '"' ∧ c ≠ '\\') :
    keptText (.plain c fits :: strokes) = (keptText strokes).map (c :: ·) := by
  obtain ⟨hlow, hquote, hslash⟩ := fits
  rw [keptText, keptFrom_cons, keptText, keptFrom, ← onlyRead_withChar]
  simp [Stroke.text, scanQuoted, hquote, hslash, Nat.not_lt.mpr hlow]

theorem keptText_letter (c : Char) (known : c ∈ ['"', '\\', '/', 'b', 'f', 'n', 'r', 't'])
    {e : Char} (he : escaped? c = some e) :
    keptText (.letter c known :: strokes) = (keptText strokes).map (e :: ·) := by
  obtain ⟨hu, -⟩ := escaped?_of_mem known
  rw [keptText, keptFrom_cons, keptText, keptFrom, ← onlyRead_withChar]
  simp [Stroke.text, scanQuoted, hu, he]

/-- A unit is a character, or the first half of a pair; a second half alone is at fault. -/
theorem keptText_code {s : Stroke} {unit : ℕ} (hs : s.unit? = some unit) :
    keptText (s :: strokes) =
      if isLead unit then keptFrom (.pair unit) strokes
      else if isTrail unit then .error (.malformed [])
      else (keptText strokes).map (Char.ofNat unit :: ·) := by
  rw [keptText, keptFrom_cons, (scanQuoted_code hs _).2.1]
  split
  next => rfl
  next =>
    split
    next => rfl
    next => exact onlyRead_withChar _ _

theorem keptFrom_pair {s : Stroke} {lead trail : ℕ} (hs : s.unit? = some trail)
    (htrail : isTrail trail = true) :
    keptFrom (.pair lead) (s :: strokes) = (keptText strokes).map (pairChar lead trail :: ·) := by
  rw [keptFrom_cons, (scanQuoted_code hs _).2.2, if_pos htrail]
  exact onlyRead_withChar _ _

/-- Behind a first half there has to be a second one. -/
theorem of_keptFrom_pair {lead : ℕ} {text : List Char}
    (h : keptFrom (.pair lead) strokes = .ok text) :
    ∃ s rest trail, strokes = s :: rest ∧ s.unit? = some trail ∧ isTrail trail = true := by
  cases strokes with
  | nil => cases h
  | cons s rest =>
    rw [keptFrom_cons] at h
    cases s with
    | plain c fits =>
      have hslash : c ≠ '\\' := fits.2.2
      simp [Stroke.text, scanQuoted, hslash, onlyRead, Except.map] at h
    | letter c known =>
      obtain ⟨hu, -⟩ := escaped?_of_mem known
      simp [Stroke.text, scanQuoted, hu, onlyRead, Except.map] at h
    | code a b c d hex =>
      obtain ⟨trail, htrail⟩ : ∃ trail, (Stroke.code a b c d hex).unit? = some trail := ⟨_, rfl⟩
      rw [(scanQuoted_code htrail _).2.2] at h
      split at h
      next htrail' => exact ⟨_, rest, trail, rfl, htrail, htrail'⟩
      next => cases h

end Strokes

theorem keptText_of_standsFor {strokes : List Stroke} {text : List Char}
    (h : StandsFor strokes text) : keptText strokes = .ok text := by
  induction h with
  | nil => rfl
  | plain c fits more ih =>
    rw [keptText_plain, ih]
    rfl
  | letter c known h more ih =>
    rw [keptText_letter c known h, ih]
    rfl
  | code hs hlead htrail more ih =>
    rw [keptText_code hs, hlead, htrail, ih]
    rfl
  | pair hs hs' hlead htrail more ih =>
    rw [keptText_code hs, if_pos hlead, keptFrom_pair hs' htrail, ih]
    rfl

theorem of_map_cons_ok {x : Except Fault (List Char)} {c : Char} {text : List Char}
    (h : x.map (c :: ·) = .ok text) : ∃ rest, text = c :: rest ∧ x = .ok rest := by
  cases x with
  | error f => cases h
  | ok rest => exact ⟨rest, (Except.ok.inj h).symm, rfl⟩

theorem standsFor_of_keptText : ∀ {strokes : List Stroke} {text : List Char},
    keptText strokes = .ok text → StandsFor strokes text
  | [], _, h => by
    obtain rfl := Except.ok.inj h
    exact .nil
  | .plain c fits :: strokes, _, h => by
    rw [keptText_plain] at h
    obtain ⟨rest, rfl, hrest⟩ := of_map_cons_ok h
    exact .plain c fits (standsFor_of_keptText hrest)
  | .letter c known :: strokes, _, h => by
    obtain ⟨-, e, he⟩ := escaped?_of_mem known
    rw [keptText_letter c known he] at h
    obtain ⟨rest, rfl, hrest⟩ := of_map_cons_ok h
    exact .letter c known he (standsFor_of_keptText hrest)
  | .code a b c d hex :: strokes, _, h => by
    obtain ⟨unit, hunit⟩ : ∃ unit, (Stroke.code a b c d hex).unit? = some unit := ⟨_, rfl⟩
    rw [keptText_code hunit] at h
    split at h
    next hlead =>
      -- the second half is the next stroke
      obtain ⟨s, strokes', trail, rfl, hs, htrail⟩ := of_keptFrom_pair h
      rw [keptFrom_pair hs htrail] at h
      obtain ⟨rest, rfl, hrest⟩ := of_map_cons_ok h
      exact .pair hunit hs hlead htrail (standsFor_of_keptText hrest)
    next hlead =>
      split at h
      next => cases h
      next htrail =>
        obtain ⟨rest, rfl, hrest⟩ := of_map_cons_ok h
        exact .code hunit (by simpa using hlead) (by simpa using htrail)
          (standsFor_of_keptText hrest)

/-- A quoted text is read as what its strokes stand for, if they stand for a text. -/
theorem keptText_eq_ok_iff {strokes : List Stroke} {text : List Char} :
    keptText strokes = .ok text ↔ StandsFor strokes text :=
  ⟨standsFor_of_keptText, keptText_of_standsFor⟩

end NameResolution.Json
