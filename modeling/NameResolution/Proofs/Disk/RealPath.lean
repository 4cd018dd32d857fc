import NameResolution.Disk.RealPath
import NameResolution.Proofs.Disk.Tree

/-!
# Finding a real path

The search for a real path asks for every name by the whole path of its place. On a tree,
such a path is walked straight to the place (`IsTree.locate_of_steps`), so the search hears
what stands there, or that the path is too long (`IsTree.lookUp_cases`). It comes to where
the walk along the steps comes, or ends at a path that is too long
(`IsTree.realSpot_cases`). Behind a way that a walk can take, it goes on as from where the
way leads (`IsTree.realSpot_append`).
-/

namespace NameResolution

namespace Disk

variable {d : Disk} {s t : Spot} {place base : Place} {name : List Char} {node : Node}
variable {steps rest more : List Step} {k n : Nat} {f : Bool} {p : Path}

/-! ## Directories that are there -/

/-- The spot is in the tree, at a directory. -/
def IsThere (d : Disk) (s : Spot) : Prop := s.gone = 0 ∧ d.node? s.place = some .directory

/-- A directory that is there holds on to a directory. -/
theorem IsThere.holds (h : d.IsThere s) : d.Holds s := by
  rw [Holds, Spot.standing_of_gone h.1]
  exact h.2

/-- A spot that nothing is gone of is there, if it holds. -/
theorem isThere_of_holds (h : d.Holds s) (hgone : s.gone = 0) : d.IsThere s := by
  rw [Holds, Spot.standing_of_gone hgone] at h
  exact ⟨hgone, h⟩

theorem isThere_root : d.IsThere .root := ⟨rfl, node?_root⟩

/-- A directory that stands under a name is there. -/
theorem isThere_below (h : d.at? s name = some .directory) : d.IsThere (s.below name) := ⟨rfl, h⟩

/-- Above a directory that is there, one is there. -/
theorem IsTree.isThere_up (hd : d.IsTree) (h : d.IsThere s) : d.IsThere s.up :=
  isThere_of_holds (hd.holds_up h.holds) (by simp [Spot.up, h.1])

/-- A walk that starts over from a directory that is there, or from the root, starts from one that
is there. -/
theorem IsThere.startOf (h : d.IsThere s) (text : List Char) : d.IsThere (startOf s text) :=
  startOf_cases isThere_root h text

/-- From a directory that is there, a walk comes to directories that are there. -/
theorem Comes.isThere (hd : d.IsTree) (h : d.Comes t [] k s steps) (hs : d.IsThere s)
    (hsteps : ∀ step ∈ steps, step.IsSound) : d.IsThere t :=
  isThere_of_holds (h.holds hd hs.holds hsteps).1 (h.gone_eq_zero hs.1)

/-! ## The path of a place -/

/-- The names on the way to what stands on a tree are names of entries. -/
theorem IsTree.names (hd : d.IsTree) {node : Node} (h : d.node? place = some node) :
    ∀ name ∈ place, IsEntryName name := by
  induction place using List.reverseRecOn generalizing node with
  | nil => nofun
  | append_singleton place last ih =>
    obtain ⟨hlast, hparent⟩ := hd.entry h
    intro other hother
    rcases List.mem_append.mp hother with hother | hother
    · exact ih hparent other hother
    · rw [List.mem_singleton.mp hother]
      exact hlast

/-- The path of a place is read as the names on the way. -/
theorem components_pathOf (h : ∀ name ∈ place, (Component.name name).IsStep) :
    (pathOf place).components = .root :: place.map .name := by
  have hroot : ([.root] : List Component) = [] ∨ [Component.root] = [.root] := .inr rfl
  refine Path.components_ofComponents hroot fun x hx => ?_
  obtain ⟨name, hname, rfl⟩ := List.mem_map.mp hx
  exact h name hname

/-- No two places of a tree have one path. -/
theorem IsTree.pathOf_injective (hd : d.IsTree) {place' : Place} {node node' : Node}
    (h : d.node? place = some node) (h' : d.node? place' = some node')
    (heq : pathOf place = pathOf place') : place = place' := by
  have hnames := congrArg Path.components heq
  rw [components_pathOf fun name hname => (hd.names h name hname).isStep,
    components_pathOf fun name hname => (hd.names h' name hname).isStep] at hnames
  exact (List.map_injective_iff.mpr fun _ _ => Component.name.inj) (List.cons.inj hnames).2

/-- Only what is in a name is in the path of a place, but for slashes. -/
theorem plain_pathOf (h : ∀ name ∈ place, '\x00' ∉ name) : '\x00' ∉ (pathOf place).spelling := by
  intro hmem
  rcases List.mem_cons.mp hmem with hslash | hmem
  · exact absurd hslash (by decide)
  rcases Path.mem_of_mem_slashed hmem with hslash | ⟨x, hx, hmem⟩
  · exact absurd hslash (by decide)
  obtain ⟨name, hname, rfl⟩ := List.mem_map.mp hx
  exact h name hname hmem

/-- The path of a place goes down its names. -/
theorem ofText_pathOf (hne : place ≠ []) (h : ∀ name ∈ place, (Component.name name).IsStep) :
    Step.ofText (pathOf place).spelling = .stay :: place.map .down := by
  have hsteps : Step.ofText (pathOf place).spelling =
      .stay :: Step.ofText (Path.slashed (place.map .name)) :=
    Step.ofText_append_slash [] _
  rw [hsteps, Step.ofText_names hne h]

/-- From a directory one comes down to those that stand below it. -/
theorem IsTree.comes_down (hd : d.IsTree) (h : d.node? (base ++ place) = some .directory) :
    d.Comes ⟨base ++ place, 0⟩ [] 0 ⟨base, 0⟩ (place.map .down) := by
  induction place generalizing base with
  | nil =>
    rw [List.append_nil]
    exact .here
  | cons name place ih =>
    rw [List.append_cons] at h ⊢
    have hname := hd.names h name (by simp)
    have hat : d.at? ⟨base, 0⟩ name = some .directory := by
      by_cases hplace : place = []
      · rwa [hplace, List.append_nil] at h
      · exact hd.above hplace h
    exact .down ⟨rfl, hname.fits⟩ hat (ih h)

/-- What is behind the path of a directory is walked from the directory. -/
theorem IsTree.locate_of_steps (hd : d.IsTree) (hs : d.IsThere s) (hplain : '\x00' ∉ p.spelling)
    (habs : p.isAbsolute = true)
    (hsteps : Step.ofText p.spelling = .stay :: (s.place.map .down ++ more)) (hmore : more ≠ []) :
    d.locate f p = d.follow f linkLimit s more := by
  have hne : p.spelling ≠ [] := by
    intro hnil
    rw [Path.isAbsolute, hnil] at habs
    cases habs
  have hcomes : d.Comes ⟨s.place, 0⟩ [] 0 ⟨[], 0⟩ (s.place.map .down) :=
    hd.comes_down (show d.node? ([] ++ s.place) = _ from hs.2)
  have hwalk := hcomes.follow_append (fun hnil => absurd hnil hmore) (f := f) linkLimit
  rw [Nat.zero_add] at hwalk
  have hhere : (⟨s.place, 0⟩ : Spot) = s := by rw [← hs.1]
  rw [locate_eq hplain hne, startOf_of_absolute habs, hsteps, follow_stay]
  exact hwalk.trans (by rw [hhere])

/-! ## Asking for a name -/

/-- Names behind the path of a directory are sound, as the names on the way to it are. -/
theorem IsTree.sound_below (hd : d.IsTree) (hs : d.IsThere s) {names : List (List Char)}
    (hnames : ∀ name ∈ names, (Component.name name).IsStep ∧ '\x00' ∉ name) :
    ∀ name ∈ s.place ++ names, (Component.name name).IsStep ∧ '\x00' ∉ name := by
  intro name hname
  rcases List.mem_append.mp hname with hname | hname
  · exact ⟨(hd.names hs.2 name hname).isStep, (hd.names hs.2 name hname).plain⟩
  · exact hnames name hname

/-- Names behind the path of a directory, perhaps with a slash behind them, are walked from the
directory. -/
theorem IsTree.locate_below (hd : d.IsTree) (hs : d.IsThere s) {names : List (List Char)}
    (hne : names ≠ []) (hnames : ∀ name ∈ names, (Component.name name).IsStep ∧ '\x00' ∉ name) :
    d.locate false (pathOf (s.place ++ names)) = d.follow false linkLimit s (names.map .down) ∧
      d.locate true ⟨(pathOf (s.place ++ names)).spelling ++ ['/']⟩ =
        d.follow true linkLimit s (names.map .down ++ [.stay]) := by
  have hall := hd.sound_below hs hnames
  have hplain := plain_pathOf fun name hname => (hall name hname).2
  have hsteps := ofText_pathOf (by simp [hne]) fun name hname => (hall name hname).1
  rw [List.map_append] at hsteps
  constructor
  · exact hd.locate_of_steps hs hplain rfl hsteps (by simpa using hne)
  · refine hd.locate_of_steps hs ?_ rfl ?_ (by simp)
    · rw [List.mem_append, not_or]
      exact ⟨hplain, by decide⟩
    · show Step.ofText (_ ++ '/' :: []) = _
      rw [Step.ofText_append_slash, hsteps, List.cons_append, List.append_assoc]
      rfl

/-- What the search hears of a name in a directory, if the path of its place is not too long. -/
def told (d : Disk) (s : Spot) (name : List Char) (rest : List Step) :
    Except FileError (Spot × Node) :=
  if nameLimit < byteLength name then .error .nameTooLong
  else match d.at? s name with
    | none => .error .notFound
    | some (.file bytes) =>
      if Step.needDirectory rest then .error .notADirectory
      else .ok (s.below name, .file bytes)
    | some node => .ok (s.below name, node)

/-- A directory is heard of, whatever the steps behind its name. -/
theorem told_of_directory (hfits : byteLength name ≤ nameLimit)
    (hat : d.at? s name = some .directory) :
    d.told s name rest = .ok (s.below name, .directory) := by
  rw [told, if_neg (Nat.not_lt.mpr hfits), hat]

/-- The search hears what a walk finds that does not follow the link at its end. -/
theorem follow_eq_told (hgone : s.gone = 0) :
    (d.follow false n s [.down name] >>= occupant) = d.told s name [] := by
  unfold told
  by_cases hlong : nameLimit < byteLength name
  · rw [follow_down_of_not_admits fun h => absurd h.2 (Nat.not_le.mpr hlong), if_pos hgone,
      if_pos hlong]
    rfl
  · rw [follow_down ⟨hgone, Nat.not_lt.mp hlong⟩, if_neg hlong]
    cases d.at? s name with
    | none => rfl
    | some node =>
      cases node with
      | directory =>
        simp only [follow_nil]
        rfl
      | file bytes => rfl
      | link target => rfl

/-- Where the steps behind a name need no directory, they do not matter. -/
theorem told_of_not_needDirectory (hrest : Step.needDirectory rest = false) :
    d.told s name rest = d.told s name [] := by
  unfold told
  rw [hrest]
  rfl

/-- A link is heard of as it is, whatever the steps behind the name. -/
theorem told_of_link {target : List Char} (h : d.told s name [] = .ok (t, .link target)) :
    d.told s name rest = .ok (t, .link target) := by
  unfold told at h ⊢
  split at h
  next => cases h
  next hfits =>
    rw [if_neg hfits]
    cases hat : d.at? s name with
    | none =>
      rw [hat] at h
      cases h
    | some node =>
      rw [hat] at h
      cases node with
      | directory => cases h
      | file bytes => cases h
      | link other => exact h

/-- With a slash at the end, what is no link has to be a directory. -/
theorem follow_slash_eq_told (hgone : s.gone = 0)
    (hlink : ∀ t target, d.told s name [] ≠ .ok (t, .link target))
    (hrest : Step.needDirectory rest = true) :
    (d.follow true n s [.down name, .stay] >>= occupant) = d.told s name rest := by
  unfold told at hlink ⊢
  by_cases hlong : nameLimit < byteLength name
  · rw [follow_down_of_not_admits fun h => absurd h.2 (Nat.not_le.mpr hlong), if_pos hgone,
      if_pos hlong]
    rfl
  · rw [follow_down ⟨hgone, Nat.not_lt.mp hlong⟩, if_neg hlong]
    rw [if_neg hlong] at hlink
    cases hat : d.at? s name with
    | none => rfl
    | some node =>
      cases node with
      | directory =>
        simp only [follow_stay, follow_nil]
        rfl
      | file bytes =>
        simp only [hrest]
        rfl
      | link target =>
        rw [hat] at hlink
        exact absurd rfl (hlink _ target)

/-- A path that is short enough is walked. -/
theorem arrive_of_short (h : byteLength p.spelling < pathLimit) : d.arrive f p = d.locate f p := by
  rw [arrive, if_neg fun hlong => absurd hlong.2 (Nat.not_le.mpr h)]

/-- A path that is too long is refused. -/
theorem arrive_of_long (hplain : '\x00' ∉ p.spelling) (h : pathLimit ≤ byteLength p.spelling) :
    d.arrive f p = .error .nameTooLong := by
  rw [arrive, if_pos ⟨hplain, h⟩]

/-- What is heard of a name that was asked for by its path and, where a directory is needed, by its
path with a slash at the end. -/
def heard (asked slashed : Except FileError (Spot × Node)) (rest : List Step) :
    Except FileError (Spot × Node) :=
  match asked with
  | .ok (found, .link target) => .ok (found, .link target)
  | outcome => if Step.needDirectory rest then slashed else outcome

/-- Names below a directory are asked for by walks from the directory, if the path of the last one
is not too long. -/
theorem IsTree.lookUp_below (hd : d.IsTree) (hs : d.IsThere s) (front : List (List Char))
    (name : List Char) (hnames : ∀ x ∈ front ++ [name], (Component.name x).IsStep ∧ '\x00' ∉ x)
    (rest : List Step) :
    d.lookUp ⟨s.place ++ front, 0⟩ name rest =
        heard (d.follow false linkLimit s ((front ++ [name]).map .down) >>= occupant)
          (d.follow true linkLimit s ((front ++ [name]).map .down ++ [.stay]) >>= occupant) rest ∨
      d.lookUp ⟨s.place ++ front, 0⟩ name rest = .error .nameTooLong ∧
        pathLimit ≤ byteLength (pathOf (s.place ++ (front ++ [name]))).spelling + 1 := by
  have hne : front ++ [name] ≠ [] := List.append_ne_nil_of_right_ne_nil front (List.cons_ne_nil _ _)
  obtain ⟨hlocate, hslash⟩ := hd.locate_below hs hne hnames
  have hplain := plain_pathOf fun x hx => (hd.sound_below hs hnames x hx).2
  have hpath : d.lookUp ⟨s.place ++ front, 0⟩ name rest =
      heard (d.reachLink (pathOf (s.place ++ (front ++ [name]))))
        (d.reach ⟨(pathOf (s.place ++ (front ++ [name]))).spelling ++ ['/']⟩) rest := by
    rw [← List.append_assoc]
    rfl
  rw [hpath]
  generalize pathOf (s.place ++ (front ++ [name])) = q at hlocate hslash hplain ⊢
  -- with the slash behind it, the path is longer by one
  have hlength : byteLength (q.spelling ++ ['/']) = byteLength q.spelling + 1 :=
    byteLength_append _ _
  have htooLong : pathLimit ≤ byteLength q.spelling + 1 →
      d.reach ⟨q.spelling ++ ['/']⟩ = .error .nameTooLong := by
    intro hlong
    rw [reach, arrive_of_long (by simpa using hplain) (hlength ▸ hlong)]
    rfl
  by_cases hlong : pathLimit ≤ byteLength q.spelling
  · have hasked : d.reachLink q = .error .nameTooLong := by
      rw [reachLink, arrive_of_long hplain hlong]
      rfl
    rw [hasked, htooLong (Nat.le_succ_of_le hlong)]
    exact .inr ⟨ite_self _, Nat.le_succ_of_le hlong⟩
  · rw [reachLink, arrive_of_short (Nat.not_le.mp hlong), hlocate]
    by_cases hslashed : pathLimit ≤ byteLength q.spelling + 1
    · -- only the path with the slash is too long
      rw [htooLong hslashed]
      unfold heard
      split
      next => exact .inl rfl
      next =>
        split
        next => exact .inr ⟨rfl, hslashed⟩
        next => exact .inl rfl
    · rw [reach, arrive_of_short (hlength ▸ Nat.not_le.mp hslashed), hslash]
      exact .inl rfl

/-- Of a name in a directory the search hears what stands there, or that its path is too long. -/
theorem IsTree.lookUp_cases (hd : d.IsTree) (hs : d.IsThere s)
    (hname : (Component.name name).IsStep ∧ '\x00' ∉ name) (rest : List Step) :
    d.lookUp s name rest = d.told s name rest ∨
      d.lookUp s name rest = .error .nameTooLong ∧
        pathLimit ≤ byteLength (pathOf (s.place ++ [name])).spelling + 1 := by
  have hhere : (⟨s.place ++ [], 0⟩ : Spot) = s := by rw [List.append_nil, ← hs.1]
  have hcases := hd.lookUp_below hs [] name (by simpa using hname) rest
  rw [hhere] at hcases
  refine hcases.imp_left fun hlookUp => hlookUp.trans ?_
  show heard (d.follow false linkLimit s [.down name] >>= occupant)
    (d.follow true linkLimit s [.down name, .stay] >>= occupant) rest = d.told s name rest
  rw [follow_eq_told hs.1]
  unfold heard
  split
  next u target hlink => exact (told_of_link hlink).symm
  next hlink =>
    cases hrest : Step.needDirectory rest with
    | false => exact (told_of_not_needDirectory hrest).symm
    | true => exact follow_slash_eq_told hs.1 hlink hrest

/-! ## The search -/

/-- The search goes to the first link, and on from there. -/
theorem realSpot_eq :
    d.realSpot n s steps =
      match d.realLeg s steps with
      | .error e => .error e
      | .ok (.arrived t) => .ok t
      | .ok (.link base target rest) =>
        match n with
        | 0 => .error .tooManyLinks
        | m + 1 => d.realSpot m (startOf base target) (Step.ofText target ++ rest) := by
  unfold realSpot
  rw [followLegs]
  rcases d.realLeg s steps with e | t | ⟨base, target, rest⟩
  · rfl
  · rfl
  · cases n <;> rfl

theorem realSpot_nil : d.realSpot n s [] = .ok s := by
  rw [realSpot_eq, realLeg]

theorem realSpot_stay : d.realSpot n s (.stay :: steps) = d.realSpot n s steps := by
  rw [realSpot_eq, realSpot_eq, realLeg]

/-- A step up goes on from the directory above, which is not asked for. -/
theorem realSpot_up : d.realSpot n s (.up :: steps) = d.realSpot n s.up steps := by
  rw [realSpot_eq, realSpot_eq, realLeg]

/-- The search goes on as it hears of a name. -/
theorem realSpot_down :
    d.realSpot n s (.down name :: steps) =
      match d.lookUp s name steps with
      | .error e => .error e
      | .ok (_, .link target) =>
        match n with
        | 0 => .error .tooManyLinks
        | m + 1 => d.realSpot m (startOf s target) (Step.ofText target ++ steps)
      | .ok (t, _) => d.realSpot n t steps := by
  rw [realSpot_eq, realLeg]
  rcases d.lookUp s name steps with e | ⟨t, node⟩
  · rfl
  · cases node with
    | directory => exact realSpot_eq.symm
    | file bytes => exact realSpot_eq.symm
    | link target => cases n <;> rfl

/-- Where an arrival is; nothing is at a vacant place. -/
def spotOf : Arrival → Except FileError Spot
  | .found s _ => .ok s
  | .vacant _ _ => .error .notFound

/-- Behind a file the search finds no directory, if it hears of the next name. -/
theorem IsTree.realSpot_behind_file (hd : d.IsTree) (hs : d.IsThere s) {bytes : List UInt8}
    (hfile : d.at? s name = some (.file bytes)) (hfits : byteLength name ≤ nameLimit)
    (hname : (Component.name name).IsStep ∧ '\x00' ∉ name)
    (hsteps : ∀ step ∈ steps, step.IsSound) (hne : steps ≠ [])
    (hrest : Step.needDirectory steps = false) :
    d.realSpot n (s.below name) steps = .error .notADirectory ∨
      d.realSpot n (s.below name) steps = .error .nameTooLong := by
  induction steps with
  | nil => exact absurd rfl hne
  | cons step steps ih =>
    cases step with
    | up => cases hrest
    | stay =>
      rw [Step.needDirectory, Bool.or_eq_false_iff] at hrest
      rw [realSpot_stay]
      exact ih (List.forall_mem_cons.mp hsteps).2 (by simpa using hrest.1) hrest.2
    | down next =>
      have hnext := hsteps _ List.mem_cons_self next rfl
      -- a walk does not come past the file
      have hwalk : ∀ f more, d.follow f linkLimit s (.down name :: .down next :: more) =
          .error .notADirectory := by
        intro f more
        rw [follow_down ⟨hs.1, hfits⟩]
        simp only [hfile]
        rfl
      have hlookUp := hd.lookUp_below hs [name] next (by simpa using ⟨hname, hnext⟩) steps
      rw [realSpot_down]
      rcases hlookUp with hheard | ⟨hlong, -⟩
      · left
        have hfound : d.lookUp (s.below name) next steps = .error .notADirectory := by
          refine hheard.trans ?_
          show heard (d.follow false linkLimit s (.down name :: .down next :: []) >>= occupant)
            (d.follow true linkLimit s (.down name :: .down next :: [.stay]) >>= occupant) steps = _
          rw [hwalk, hwalk]
          exact ite_self _
        rw [hfound]
      · right
        have hfound : d.lookUp (s.below name) next steps = .error .nameTooLong := hlong
        rw [hfound]

/-- The search comes to where the walk comes, or ends at a path that is too long. -/
theorem IsTree.realSpot_cases (hd : d.IsTree) (n : Nat) (hs : d.IsThere s)
    (hsteps : ∀ step ∈ steps, step.IsSound) :
    d.realSpot n s steps = (d.follow true n s steps >>= spotOf) ∨
      d.realSpot n s steps = .error .nameTooLong := by
  induction n, s, steps using walk_induction with
  | nil n s =>
    rw [realSpot_nil, follow_nil]
    exact .inl rfl
  | stay n s steps ih =>
    rw [realSpot_stay, follow_stay]
    exact ih hs (List.forall_mem_cons.mp hsteps).2
  | up n s steps ih =>
    rw [realSpot_up, follow_up]
    exact ih (hd.isThere_up hs) (List.forall_mem_cons.mp hsteps).2
  | down n s name steps ihdirectory ihlink =>
    have hname := hsteps _ List.mem_cons_self name rfl
    have hrest := (List.forall_mem_cons.mp hsteps).2
    rw [realSpot_down]
    rcases hd.lookUp_cases hs hname steps with htold | ⟨hlong, -⟩
    · rw [htold, told]
      by_cases hfits : nameLimit < byteLength name
      · rw [if_pos hfits]
        exact .inr rfl
      · rw [if_neg hfits, follow_down ⟨hs.1, Nat.not_lt.mp hfits⟩]
        cases hat : d.at? s name with
        | none =>
          left
          dsimp only
          split <;> rfl
        | some node =>
          cases node with
          | directory => exact ihdirectory (isThere_below hat) hrest
          | file bytes =>
            by_cases hlast : steps = []
            · subst hlast
              exact .inl realSpot_nil
            · dsimp only
              rw [if_neg hlast]
              cases hneed : Step.needDirectory steps with
              | true => exact .inl rfl
              | false =>
                exact hd.realSpot_behind_file hs hat (Nat.not_lt.mp hfits) hname hrest hlast hneed
          | link target =>
            have hfollowed : ¬ (steps = [] ∧ true = false) := fun h => absurd h.2 (by decide)
            dsimp only
            rw [if_neg hfollowed]
            cases n with
            | zero => exact .inl rfl
            | succ m =>
              exact ihlink m target rfl (hs.startOf target) (hd.sound_link hat hrest)
    · rw [hlong]
      exact .inr rfl

/-- Behind a way that a walk can take, the search goes on as from where the way leads, with as many
links less to follow; or it ends at a path that is too long. -/
theorem IsTree.realSpot_append (hd : d.IsTree) (h : d.Comes t [] k s steps) (hs : d.IsThere s)
    (hsteps : ∀ step ∈ steps, step.IsSound) (more : List Step) (m : Nat) :
    d.realSpot (k + m) s (steps ++ more) = d.realSpot m t more ∨
      d.realSpot (k + m) s (steps ++ more) = .error .nameTooLong := by
  induction h with
  | here =>
    rw [Nat.zero_add]
    exact .inl rfl
  | stay _ ih =>
    rw [List.cons_append, realSpot_stay]
    exact ih hs (List.forall_mem_cons.mp hsteps).2
  | up _ ih =>
    rw [List.cons_append, realSpot_up]
    exact ih (hd.isThere_up hs) (List.forall_mem_cons.mp hsteps).2
  | @down k s name steps hadmits hat _ ih =>
    have hname := hsteps _ List.mem_cons_self name rfl
    rw [List.cons_append, realSpot_down]
    rcases hd.lookUp_cases hs hname (steps ++ more) with htold | ⟨hlong, -⟩
    · rw [htold, told_of_directory hadmits.2 hat]
      exact ih (isThere_below hat) (List.forall_mem_cons.mp hsteps).2
    · rw [hlong]
      exact .inr rfl
  | @link k s name target steps hadmits hat _ ih =>
    have hname := hsteps _ List.mem_cons_self name rfl
    have hrest := (List.forall_mem_cons.mp hsteps).2
    rw [List.cons_append, realSpot_down, Nat.add_right_comm]
    rcases hd.lookUp_cases hs hname (steps ++ more) with htold | ⟨hlong, -⟩
    · rw [htold, told, if_neg (Nat.not_lt.mpr hadmits.2), hat]
      have hbehind := ih (hs.startOf target) (hd.sound_link hat hrest)
      rwa [List.append_assoc] at hbehind
    · rw [hlong]
      exact .inr rfl

/-- Where neither long paths nor the number of links stop the search, it comes behind a way to what
it comes to from where the way leads. -/
theorem IsTree.realSpot_behind (hd : d.IsTree) {m : Nat} (h : d.Comes t [] k s steps)
    (hs : d.IsThere s) (hsteps : ∀ step ∈ steps, step.IsSound)
    (hmore : ∀ step ∈ more, step.IsSound) (hlinks : d.follow true m t more ≠ .error .tooManyLinks)
    (hroom : d.realSpot (k + m) s (steps ++ more) = .error .nameTooLong →
      d.follow true m t more = .error .nameTooLong) (hle : m ≤ n) :
    d.realSpot (k + m) s (steps ++ more) = d.realSpot n t more := by
  have hcases := hd.realSpot_cases m (h.isThere hd hs hsteps) hmore
  have henough : d.realSpot m t more ≠ .error .tooManyLinks := by
    rcases hcases with hends | hends
    · rw [hends]
      rcases hwalk : d.follow true m t more with e | ⟨u, node⟩ | ⟨u, name⟩
      · exact fun h => hlinks (hwalk.trans (congrArg Except.error (Except.error.inj h)))
      · nofun
      · nofun
    · rw [hends]
      nofun
  have hmono : d.realSpot n t more = d.realSpot m t more := followLegs_mono henough hle
  rw [hmono]
  rcases hd.realSpot_append h hs hsteps more m with hbehind | hlong
  · exact hbehind
  · rw [hlong]
    rcases hcases with hends | hends
    · rw [hends, hroom hlong]
      rfl
    · exact hends.symm

/-- The path of a place gets longer with every name. -/
theorem byteLength_pathOf_le (place : Place) (name : List Char) :
    byteLength (pathOf place).spelling ≤ byteLength (pathOf (place ++ [name])).spelling := by
  have hbehind : ∃ text, (pathOf (place ++ [name])).spelling = (pathOf place).spelling ++ text := by
    unfold pathOf
    by_cases hroot : place = []
    · exact ⟨name, by rw [hroot]; rfl⟩
    · refine ⟨'/' :: name, congrArg ('/' :: ·) ?_⟩
      rw [List.map_append]
      exact Path.slashed_concat (by simpa using hroot) (.name name)
  obtain ⟨text, htext⟩ := hbehind
  rw [htext, byteLength_append]
  exact Nat.le_add_right _ _

/-- The search comes down to a directory by its path, if that is short enough to be asked for. -/
theorem IsTree.realSpot_pathOf (hd : d.IsTree) (h : d.node? place = some .directory)
    (hshort : byteLength (pathOf place).spelling + 1 < pathLimit) :
    d.realSpot n .root (place.map .down ++ more) = d.realSpot n ⟨place, 0⟩ more := by
  induction place using List.reverseRecOn generalizing more with
  | nil => rfl
  | append_singleton place name ih =>
    obtain ⟨hname, hparent⟩ := hd.entry h
    have hroom := byteLength_pathOf_le place name
    have hpath : d.realSpot n .root (place.map .down ++ .down name :: more) =
      d.realSpot n ⟨place, 0⟩ (.down name :: more) := ih hparent (by omega)
    rw [List.map_append, List.append_assoc, List.map_singleton, List.singleton_append, hpath,
      realSpot_down]
    have hthere : d.IsThere ⟨place, 0⟩ := ⟨rfl, hparent⟩
    have hat : d.at? ⟨place, 0⟩ name = some .directory := h
    rcases hd.lookUp_cases hthere ⟨hname.isStep, hname.plain⟩ more with htold | ⟨-, hlong⟩
    · rw [htold, told_of_directory hname.fits hat]
      rfl
    · exact absurd hlong (Nat.not_le.mpr hshort)

/-! ## Real paths -/

theorem realPath_of_nul (h : '\x00' ∈ p.spelling) : d.realPath p = .error .invalidInput := by
  rw [realPath, if_pos h]

/-- From a deleted directory, nothing has a real path. -/
theorem realPath_of_deleted (hplain : '\x00' ∉ p.spelling) (hrel : p.isAbsolute = false)
    (hgone : d.workingDirectory.gone ≠ 0) : d.realPath p = .error .notFound := by
  rw [realPath, if_neg hplain]
  split
  next => rfl
  next => rw [if_pos ⟨hrel, hgone⟩]

/-- From where it starts, the real path of a path is searched for. -/
theorem realPath_eq (hplain : '\x00' ∉ p.spelling) (hne : p.spelling ≠ [])
    (hstart : p.isAbsolute = true ∨ d.workingDirectory.gone = 0) :
    d.realPath p =
      d.realSpot linkLimit (startOf d.workingDirectory p.spelling) (Step.ofText p.spelling) >>=
        fun spot => .ok (pathOf spot.place) := by
  have hthere : ¬ (p.isAbsolute = false ∧ d.workingDirectory.gone ≠ 0) := by
    rintro ⟨hrel, hgone⟩
    exact hstart.elim (fun habs => absurd (habs.symm.trans hrel) (by decide)) hgone
  rw [realPath, if_neg hplain, if_neg hne, if_neg hthere]
  rfl

/-- A path starts from a directory that is there, but for a relative one in a deleted directory. -/
theorem IsTree.isThere_start (hd : d.IsTree)
    (hstart : p.isAbsolute = true ∨ d.workingDirectory.gone = 0) :
    d.IsThere (startOf d.workingDirectory p.spelling) := by
  rcases hstart with habs | hgone
  · rw [startOf_of_absolute habs]
    exact isThere_root
  · exact (isThere_of_holds hd.working hgone).startOf _

/-- The real path of a path is the path of where it leads, if none on the way is too long. -/
theorem IsTree.realPath_cases (hd : d.IsTree)
    (hstart : p.isAbsolute = true ∨ d.workingDirectory.gone = 0) :
    d.realPath p = ((d.locate true p >>= spotOf) >>= fun spot => .ok (pathOf spot.place)) ∨
      d.realPath p = .error .nameTooLong := by
  by_cases hplain : '\x00' ∈ p.spelling
  · rw [realPath_of_nul hplain, locate_of_nul hplain]
    exact .inl rfl
  by_cases hne : p.spelling = []
  · rw [realPath, locate, if_neg hplain, if_neg hplain, if_pos hne, if_pos hne]
    exact .inl rfl
  rw [realPath_eq hplain hne hstart, locate_eq hplain hne]
  refine (hd.realSpot_cases linkLimit (hd.isThere_start hstart)
    fun step => Step.isSound_of_mem_ofText hplain).imp (fun h => ?_) fun h => ?_
  · rw [h]
  · rw [h]
    rfl

end Disk

end NameResolution
