import PocketUnix.Proofs.Editor.Buffer
import PocketUnix.Proofs.Editor.Commands

/-!
# What the editor writes

Of all keys only those that save touch the machine. They write to the file that the editor is for,
or to one that is named for it.
-/

namespace PocketUnix.Editor

variable (e : Editor)

theorem sameFile_tick (now : Nat) : SameFile e (e.tick now) := by
  unfold tick
  split
  · split <;> exact ⟨rfl, rfl⟩
  · exact ⟨rfl, rfl⟩

theorem sameFile_fireChord (first : Char) : SameFile e (e.fireChord first) := by
  unfold fireChord
  split
  · exact ⟨rfl, rfl⟩
  · have hdeleted := (onBuffer_deleteLine e).sameFile
    exact ⟨hdeleted.target, hdeleted.pendingSave⟩

/-- No key of normal mode names another file. -/
theorem sameFile_plainKey (now : Nat) (key : Key) : SameFile e (e.plainKey now key) := by
  unfold plainKey
  split
  case h_5 | h_6 => exact (onBuffer_stepBack e).sameFile
  case h_7 | h_8 => exact (onBuffer_stepForward e).sameFile
  case h_9 | h_10 => exact (onBuffer_moveDown e).sameFile
  case h_11 | h_12 => exact (onBuffer_moveUp e).sameFile
  case h_18 | h_19 => split <;> exact ⟨rfl, rfl⟩
  all_goals exact ⟨rfl, rfl⟩

/-- Nor does the end of a chord. -/
theorem sameFile_normalKey (now : Nat) (key : Key) : SameFile e (e.normalKey now key) := by
  have hdropped (e' : Editor) (h : SameFile { e with chord := none } e') : SameFile e e' :=
    ⟨h.target, h.pendingSave⟩
  unfold normalKey
  split
  · exact sameFile_plainKey e now key
  · dsimp only
    split
    · split
      · exact hdropped _ (sameFile_fireChord _ _)
      · exact ⟨rfl, rfl⟩
    · exact hdropped _ (sameFile_plainKey _ now key)

/-- No key of insert mode names another file. -/
theorem sameFile_insertKey (key : Key) : SameFile e (e.insertKey key) := by
  by_cases hescape : key = .escape
  · rw [hescape]
    exact ⟨rfl, rfl⟩
  · by_cases hinterrupt : key = .interrupt
    · rw [hinterrupt]
      exact ⟨rfl, rfl⟩
    · exact (onBuffer_insertKey e hescape hinterrupt).sameFile

/-- A key leaves machine and target as they are, or it saves the buffer: to the target or to a
path that it reads, which then is the target. -/
inductive Saves (e : Editor) (now : DateTime) (m : Machine) : KeyOutcome → Prop
  | not {o : KeyOutcome} (hm : o.machine = m) (ht : o.editor.target = e.target) : Saves e now m o
  | written {o : KeyOutcome} {p : Path} {text : String} {root : Node}
    (hp : e.target = some p ∨ ∃ name, p = m.resolve name)
    (hw : m.root.write p m.user m.group now text = .ok root)
    (hm : o.machine = { m with root }) (ht : o.editor.target = some p) : Saves e now m o

variable {e} {now : DateTime} {m : Machine}

theorem Saves.of_target {e' : Editor} {o : KeyOutcome} (h : Saves e' now m o)
    (ht : e'.target = e.target) : Saves e now m o := by
  cases h with
  | not hm he => exact .not hm (he.trans ht)
  | written hp hw hm he => exact .written (ht ▸ hp) hw hm he

/-- What is saved to the target or to a path that is read is one of these. -/
theorem saves_save {p : Path} (hp : e.target = some p ∨ ∃ name, p = m.resolve name)
    (action : SaveAction) : Saves e now m (e.save p action now m) := by
  cases hw : m.root.write p m.user m.group now e.text with
  | error fault =>
    rw [save_error hw]
    exact .not rfl rfl
  | ok root =>
    obtain ⟨status, exit, -, hsave⟩ := save_ok hw action
    rw [hsave]
    exact .written hp hw rfl rfl

/-- A command line that saves does so to the name in it, or else to the target. -/
theorem saves_writeCommand (name : Option String) (action : SaveAction) :
    Saves e now m (e.writeCommand name action now m) := by
  cases name with
  | some name => exact saves_save (.inr ⟨name, rfl⟩) action
  | none =>
    unfold writeCommand
    cases ht : e.target with
    | some p => exact saves_save (.inl ht) action
    | none => exact .not rfl ht.symm

/-- Other command lines leave machine and target as they are. -/
theorem saves_runCommand (command : String) : Saves e now m (e.runCommand command now m) := by
  rcases runCommand_cases e command now m with ⟨action, -, h⟩ | ⟨-, ⟨-, h⟩ | ⟨-, status, h⟩⟩
  · rw [h]
    exact saves_writeCommand _ action
  · rw [h]
    exact .not rfl rfl
  · rw [h]
    exact .not rfl rfl

theorem saves_commandKey (key : Key) : Saves e now m (e.commandKey key now m) := by
  cases key with
  | enter => exact Saves.of_target (saves_runCommand _) rfl
  | _ => exact .not rfl rfl

/-- A name at the prompt is read, and the text is saved there. -/
theorem saves_promptKey (key : Key) : Saves e now m (e.promptKey key now m) := by
  cases key with
  | enter =>
    unfold promptKey
    dsimp only
    split
    · exact .not rfl rfl
    · exact Saves.of_target (saves_save (.inr ⟨_, rfl⟩) _) rfl
  | _ => exact .not rfl rfl

/-- One key in any mode. -/
theorem saves_handleKey (key : Key) (elapsed : Nat) :
    Saves e now m (e.handleKey key elapsed now m) := by
  unfold handleKey
  split
  · exact .not rfl (sameFile_normalKey e elapsed key).target
  · exact .not rfl (sameFile_insertKey e key).target
  · exact saves_commandKey key
  · exact saves_promptKey key

end PocketUnix.Editor
