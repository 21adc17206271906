import PocketUnix.Session.Editor

/-!
# Commands of the editor

What a command line comes to, said once for all that is proved about it: it saves, closes the
editor, or leaves all but the status as it is.
-/

namespace PocketUnix

/-- What the verbs that save do. -/
def SaveAction.ofVerb? (verb : String) : Option SaveAction :=
  if verb = "w" ∨ verb = "w!" then some .write
  else if verb = "wq" ∨ verb = "x" ∨ verb = "wq!" then some .writeQuit
  else none

namespace Editor

variable {e : Editor} {now : DateTime} {m : Machine}

/-- The verb that closes the editor without saving: one that insists, or one that has nothing to
lose. -/
def QuitsBy (e : Editor) (verb : String) : Prop :=
  verb = "q!" ∨ verb = "q" ∧ (e.target.isSome = true ∨ e.text = "")

/-- A command saves, closes the editor or changes its status at most. -/
theorem runCommand_cases (e : Editor) (command : String) (now : DateTime) (m : Machine) :
    (∃ action, SaveAction.ofVerb? (splitCommand command).1 = some action ∧
        e.runCommand command now m = e.writeCommand (splitCommand command).2 action now m) ∨
      SaveAction.ofVerb? (splitCommand command).1 = none ∧
        (e.QuitsBy (splitCommand command).1 ∧ e.runCommand command now m = ⟨e, .close none, m⟩ ∨
          ¬e.QuitsBy (splitCommand command).1 ∧
            ∃ status, e.runCommand command now m = stay { e with status } m) := by
  unfold runCommand
  generalize splitCommand command = parsed
  obtain ⟨verb, argument⟩ := parsed
  dsimp only
  split
  · next hempty =>
    subst hempty
    exact .inr ⟨by decide, .inr ⟨by simp [QuitsBy], e.status, rfl⟩⟩
  · split
    · next hwrite => exact .inl ⟨.write, by simp [SaveAction.ofVerb?, hwrite], rfl⟩
    · next hwrite =>
      split
      · next hclose => exact .inl ⟨.writeQuit, by simp [SaveAction.ofVerb?, hwrite, hclose], rfl⟩
      · next hclose =>
        refine .inr ⟨by simp [SaveAction.ofVerb?, hwrite, hclose], ?_⟩
        split
        · next hq =>
          subst hq
          split
          · next hclean => exact .inl ⟨by simpa [QuitsBy] using hclean, rfl⟩
          · next hdirty => exact .inr ⟨by simpa [QuitsBy] using hdirty, _, rfl⟩
        · next hq =>
          split
          · next hinsist => exact .inl ⟨.inl hinsist, rfl⟩
          · next hother => exact .inr ⟨by simp [QuitsBy, hq, hother], _, rfl⟩

theorem save_error {p : Path} {fault : TreeFault}
    (h : m.root.write p m.user m.group now e.text = .error fault) (action : SaveAction) :
    e.save p action now m = e.refuse .cannotWrite m := by
  rw [save, h]

/-- What is saved becomes the target, and the editor closes if it is to. -/
theorem save_ok {p : Path} {root : Node}
    (h : m.root.write p m.user m.group now e.text = .ok root) (action : SaveAction) :
    ∃ status exit, (exit = .stay ↔ action = .write) ∧
      e.save p action now m = ⟨{ e with target := some p, status }, exit, { m with root }⟩ := by
  rw [save, h]
  cases action with
  | write => exact ⟨_, _, by simp, rfl⟩
  | writeQuit => exact ⟨_, _, by simp, rfl⟩

/-- To the editor itself a save does no more. -/
theorem editor_save (e : Editor) (p : Path) (action : SaveAction) (now : DateTime) (m : Machine) :
    ∃ target status, (e.save p action now m).editor = { e with target, status } := by
  cases h : m.root.write p m.user m.group now e.text with
  | error fault =>
    rw [save_error h]
    exact ⟨_, _, rfl⟩
  | ok root =>
    obtain ⟨status, exit, -, hsave⟩ := save_ok h action
    rw [hsave]
    exact ⟨_, _, rfl⟩

end Editor

end PocketUnix
