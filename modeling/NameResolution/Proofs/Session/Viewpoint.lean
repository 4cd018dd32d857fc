import NameResolution.Proofs.Loader.Questions
import NameResolution.Proofs.Session.Run

/-!
# Viewpoints

Who watches a session from the outside notices some of what it does, and nothing of the
rest. A *viewpoint* says three things: what of a session matters to it, what a command
comes to from there, if to anything, and the signs it gets of a step. It is
*faithful* when what does not matter has no effect on what does: a command that comes to
nothing shows nothing and moves nothing that matters, and any other shows and moves
what it does in a session from which all the rest was taken out.

Then what is noticed of a run depends on what matters alone, of the session at the start and of
the commands (`Faithful.alike`).
-/

namespace NameResolution

/-- What can be noticed of a session: a question to a loader, or an answer. -/
inductive Sign where
  | question (asked : Observation)
  | answer (given : Answer)

/-- The signs of a step: its questions to the loaders of these sides, and its answer if that
counts. -/
def Observed.signs (sides : Side → Bool) (counts : Answer → Bool) (x : Observed Answer) :
    List Sign :=
  (x.asking sides).seen.map Sign.question ++ if counts x.value then [.answer x.value] else []

theorem Observed.signs_of_asking {sides : Side → Bool} {counts : Answer → Bool}
    {x y : Observed Answer} (h : x.asking sides = y.asking sides) :
    x.signs sides counts = y.signs sides counts := by
  rw [signs, signs, h, value_of_asking h]

theorem Observed.Spares.signs_eq {sides : Side → Bool} {counts : Answer → Bool}
    {x : Observed Answer} (h : x.Spares sides) :
    x.signs sides counts = if counts x.value then [.answer x.value] else [] := by
  have hseen : (x.asking sides).seen = [] := congrArg Observed.seen h
  rw [signs, hseen]
  rfl

structure Viewpoint where
  /-- A session without what does not matter. -/
  hide : Session → Session
  /-- What a command comes to, if to anything. -/
  form? : Command → Option Command
  /-- What is noticed of a command that is answered like this. -/
  signs : Command → Observed Answer → List Sign

namespace Viewpoint

variable (v : Viewpoint)

/-- What is noticed of a run. -/
def notices : Session → List Command → List Sign
  | _, [] => []
  | s, command :: commands =>
    v.signs command (s.step command).1 ++ notices (s.step command).2 commands

/-- What does not matter has no effect on what does. -/
structure Faithful : Prop where
  /-- A command that comes to nothing is not noticed, then or later. -/
  passes : ∀ {command : Command}, v.form? command = none → ∀ s : Session,
    v.hide (s.step command).2 = v.hide s ∧ v.signs command (s.step command).1 = []
  /-- Any other command does what it comes to, and does it without what does not matter. -/
  keeps : ∀ {command form : Command}, v.form? command = some form → ∀ s : Session,
    v.hide (s.step command).2 = v.hide ((v.hide s).step form).2 ∧
      v.signs command (s.step command).1 = v.signs form ((v.hide s).step form).1

/-- A run of what commands come to, in a session from which the rest is taken out again and
again: what is noticed, and what is left. -/
def replay : Session → List Command → List Sign × Session
  | s, [] => ([], s)
  | s, form :: forms =>
    let (signs, last) := replay (v.hide (s.step form).2) forms
    (v.signs form (s.step form).1 ++ signs, last)

variable {v}

/-- A run can be replayed without what does not matter. -/
theorem Faithful.replay_eq (h : v.Faithful) : ∀ (commands : List Command) (s : Session),
    v.replay (v.hide s) (commands.filterMap v.form?) =
      (v.notices s commands, v.hide (s.after commands))
  | [], _ => rfl
  | command :: commands, s => by
    have ih := h.replay_eq commands (s.step command).2
    rw [notices, Session.after_cons]
    cases hform : v.form? command with
    | none =>
      obtain ⟨hhide, hsigns⟩ := h.passes hform s
      rw [List.filterMap_cons_none hform, ← hhide, ih, hsigns, List.nil_append]
    | some form =>
      obtain ⟨hhide, hsigns⟩ := h.keeps hform s
      rw [List.filterMap_cons_some hform, replay, ← hhide, ih, hsigns]

/-- Runs that come to the same, from sessions that differ in nothing that matters, are noticed
alike, and lead to sessions that differ in nothing that matters. -/
theorem Faithful.alike (h : v.Faithful) {s s' : Session} (hs : v.hide s = v.hide s')
    {commands commands' : List Command}
    (hcommands : commands.filterMap v.form? = commands'.filterMap v.form?) :
    v.notices s commands = v.notices s' commands' ∧
      v.hide (s.after commands) = v.hide (s'.after commands') := by
  have hrun := h.replay_eq commands s
  rw [hs, hcommands, h.replay_eq] at hrun
  exact ⟨(congrArg Prod.fst hrun).symm, (congrArg Prod.snd hrun).symm⟩

end Viewpoint

end NameResolution
