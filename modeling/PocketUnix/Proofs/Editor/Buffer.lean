import PocketUnix.Session.Editor

/-!
# Work on the buffer

What changes the buffer or moves the cursor leaves mode, chord, target and all else of an editor as
it is.
-/

namespace PocketUnix.Editor

/-- The later editor differs at most in its buffer and its cursor. -/
def OnBuffer (e e' : Editor) : Prop := ∃ lines line column, e' = { e with lines, line, column }

/-- The later editor writes to the same file, and the same is still to be saved. -/
structure SameFile (e e' : Editor) : Prop where
  target : e'.target = e.target
  pendingSave : e'.pendingSave = e.pendingSave

namespace OnBuffer

variable {e e' e'' : Editor}

theorem refl (e : Editor) : OnBuffer e e := ⟨_, _, _, rfl⟩

theorem trans (h : OnBuffer e e') (h' : OnBuffer e' e'') : OnBuffer e e'' := by
  obtain ⟨_, _, _, rfl⟩ := h
  obtain ⟨_, _, _, rfl⟩ := h'
  exact ⟨_, _, _, rfl⟩

theorem sameFile (h : OnBuffer e e') : SameFile e e' := by
  obtain ⟨_, _, _, rfl⟩ := h
  exact ⟨rfl, rfl⟩

theorem chord (h : OnBuffer e e') : e'.chord = e.chord := by
  obtain ⟨_, _, _, rfl⟩ := h
  rfl

end OnBuffer

variable (e : Editor)

theorem onBuffer_insertChar (c : Char) : OnBuffer e (e.insertChar c) := ⟨_, _, _, rfl⟩

theorem onBuffer_insertTab : OnBuffer e (e.insertKey .tab) :=
  (((onBuffer_insertChar e ' ').trans (onBuffer_insertChar _ ' ')).trans
    (onBuffer_insertChar _ ' ')).trans (onBuffer_insertChar _ ' ')

theorem onBuffer_breakLine : OnBuffer e e.breakLine := ⟨_, _, _, rfl⟩

theorem onBuffer_deleteChar : OnBuffer e e.deleteChar := ⟨_, _, _, rfl⟩

theorem onBuffer_lineEnd : OnBuffer e e.lineEnd := ⟨_, _, _, rfl⟩

theorem onBuffer_deleteForward : OnBuffer e e.deleteForward := by
  unfold deleteForward
  split
  · exact onBuffer_deleteChar e
  · split
    · exact ⟨_, _, _, rfl⟩
    · exact .refl e

theorem onBuffer_stepBack : OnBuffer e e.stepBack := by
  unfold stepBack
  split
  · exact ⟨_, _, _, rfl⟩
  · split
    · exact ⟨_, _, _, rfl⟩
    · exact .refl e

theorem onBuffer_stepForward : OnBuffer e e.stepForward := by
  unfold stepForward
  split
  · exact ⟨_, _, _, rfl⟩
  · split
    · exact ⟨_, _, _, rfl⟩
    · exact .refl e

/-- The cursor goes back first, and what is deleted then is behind it. -/
theorem onBuffer_deleteBackward : OnBuffer e e.deleteBackward := by
  unfold deleteBackward
  split
  · exact ⟨_, _, _, rfl⟩
  · split
    · exact ⟨_, _, _, rfl⟩
    · exact .refl e

theorem onBuffer_moveTo (line : Nat) : OnBuffer e (e.moveTo line) := by
  unfold moveTo
  split
  · exact ⟨_, _, _, rfl⟩
  · exact .refl e

theorem onBuffer_moveUp : OnBuffer e e.moveUp := by
  unfold moveUp
  split
  · exact .refl e
  · exact onBuffer_moveTo e _

theorem onBuffer_moveDown : OnBuffer e e.moveDown := onBuffer_moveTo e _

theorem onBuffer_deleteLine : OnBuffer e e.deleteLine := by
  unfold deleteLine
  split
  · exact ⟨_, _, _, rfl⟩
  · exact ⟨_, _, _, rfl⟩

/-- In insert mode all keys but those that leave it work on the buffer. -/
theorem onBuffer_insertKey {key : Key} (hescape : key ≠ .escape) (hinterrupt : key ≠ .interrupt) :
    OnBuffer e (e.insertKey key) := by
  cases key with
  | escape => exact absurd rfl hescape
  | interrupt => exact absurd rfl hinterrupt
  | char c => exact onBuffer_insertChar e c
  | tab => exact onBuffer_insertTab e
  | enter => exact onBuffer_breakLine e
  | backspace => exact onBuffer_deleteBackward e
  | delete => exact onBuffer_deleteForward e
  | left => exact ⟨_, _, _, rfl⟩
  | right => exact ⟨_, _, _, rfl⟩
  | up => exact onBuffer_moveUp e
  | down => exact onBuffer_moveDown e
  | home => exact ⟨_, _, _, rfl⟩
  | finish => exact onBuffer_lineEnd e

end PocketUnix.Editor
