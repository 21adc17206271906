import PocketUnix.Proofs.Editor.Buffer
import PocketUnix.Proofs.Editor.Cursor

/-!
# Access to the buffer

The editor once more, with every access to its buffer checked: where a line or a column is out of
range it gives up, while the editor itself would go on with nothing in its place. At a place of the
buffer no access is out of range, whatever the key, and both do the same.
-/

namespace PocketUnix.Editor.Checked

section Lists

variable {α : Type} {i : Nat} {l : List α}

/-- Puts an element in front of the one at an index, or at the end. -/
def insertAt (i : Nat) (a : α) (l : List α) : Option (List α) :=
  if i ≤ l.length then some (l.insertIdx i a) else none

def removeAt (i : Nat) (l : List α) : Option (List α) :=
  if i < l.length then some (l.eraseIdx i) else none

def setAt (i : Nat) (a : α) (l : List α) : Option (List α) :=
  if i < l.length then some (l.set i a) else none

def splitAt (i : Nat) (l : List α) : Option (List α × List α) :=
  if i ≤ l.length then some (l.take i, l.drop i) else none

/-- The index of the last element, if there is one. -/
def lastIndex (l : List α) : Option Nat := if 1 ≤ l.length then some (l.length - 1) else none

theorem insertAt_eq (a : α) (h : i ≤ l.length) : insertAt i a l = some (l.insertIdx i a) := by
  simp [insertAt, h]

theorem removeAt_eq (h : i < l.length) : removeAt i l = some (l.eraseIdx i) := by
  simp [removeAt, h]

theorem setAt_eq (a : α) (h : i < l.length) : setAt i a l = some (l.set i a) := by simp [setAt, h]

theorem splitAt_eq (h : i ≤ l.length) : splitAt i l = some (l.take i, l.drop i) := by
  simp [splitAt, h]

theorem lastIndex_eq (h : 1 ≤ l.length) : lastIndex l = some (l.length - 1) := by
  simp [lastIndex, h]

end Lists

def currentLine (e : Editor) : Option (List Char) := e.lines[e.line]?

def lineLength (e : Editor) : Option Nat := (currentLine e).map List.length

def withLine (line : List Char) (e : Editor) : Option Editor := do
  let lines ← setAt e.line line e.lines
  some { e with lines }

def insertChar (c : Char) (e : Editor) : Option Editor := do
  let line ← insertAt e.column c (← currentLine e)
  let e ← withLine line e
  some { e with column := e.column + 1 }

def breakLine (e : Editor) : Option Editor := do
  let (before, behind) ← splitAt e.column (← currentLine e)
  let e ← withLine before e
  let lines ← insertAt (e.line + 1) behind e.lines
  some { e with lines, line := e.line + 1, column := 0 }

def deleteChar (e : Editor) : Option Editor := do
  let line ← removeAt e.column (← currentLine e)
  withLine line e

def joinNext (e : Editor) : Option Editor := do
  let next ← e.lines[e.line + 1]?
  let line ← currentLine e
  let e ← withLine (line ++ next) e
  let lines ← removeAt (e.line + 1) e.lines
  some { e with lines }

def deleteForward (e : Editor) : Option Editor := do
  if e.column < (← lineLength e) then deleteChar e
  else if e.hasNext then joinNext e
  else some e

def lineEnd (e : Editor) : Option Editor := do
  let column ← lineLength e
  some { e with column }

def stepBack (e : Editor) : Option Editor :=
  if 0 < e.column then some { e with column := e.column - 1 }
  else if 0 < e.line then lineEnd { e with line := e.line - 1 }
  else some e

def stepForward (e : Editor) : Option Editor := do
  if e.column < (← lineLength e) then some { e with column := e.column + 1 }
  else if e.hasNext then some { e with line := e.line + 1, column := 0 }
  else some e

def deleteBackward (e : Editor) : Option Editor :=
  if 0 < e.column then deleteChar { e with column := e.column - 1 }
  else if 0 < e.line then do joinNext (← lineEnd { e with line := e.line - 1 })
  else some e

def moveTo (line : Nat) (e : Editor) : Option Editor :=
  if line < e.lines.length then do
    let length ← lineLength { e with line }
    some { e with line, column := min e.column length }
  else some e

def moveUp (e : Editor) : Option Editor := if e.line = 0 then some e else moveTo (e.line - 1) e

def moveDown (e : Editor) : Option Editor := moveTo (e.line + 1) e

def deleteLine (e : Editor) : Option Editor :=
  if e.lines.length = 1 then do
    let lines ← setAt 0 [] e.lines
    some { e with lines, column := 0 }
  else do
    let lines ← removeAt e.line e.lines
    some { e with lines, line := min e.line (← lastIndex lines), column := 0 }

def fireChord (first : Char) (e : Editor) : Option Editor :=
  if first = 'g' then some { e with line := 0, column := 0 }
  else do
    let e ← deleteLine e
    some { e with status := "1 line deleted" }

def openLine (e : Editor) : Option Editor := do
  let lines ← insertAt (e.line + 1) [] e.lines
  some (enterInsert { e with lines, line := e.line + 1, column := 0 })

def plainKey (now : Nat) (key : Key) (e : Editor) : Option Editor :=
  match key with
  | .char 'a' => do
    let length ← lineLength e
    some (enterInsert { e with column := min (e.column + 1) length })
  | .char 'o' => openLine e
  | .char 'h' | .left => stepBack e
  | .char 'l' | .right => stepForward e
  | .char 'j' | .down => moveDown e
  | .char 'k' | .up => moveUp e
  | .char '$' | .finish => lineEnd e
  | .char 'G' => do
    let line ← lastIndex e.lines
    some { e with line, column := 0 }
  | .char 'x' | .delete => do
    if e.column < (← lineLength e) then deleteChar e else some e
  | key => some (e.plainKey now key)

def normalKey (now : Nat) (key : Key) (e : Editor) : Option Editor :=
  match e.chord with
  | none => plainKey now key e
  | some chord =>
    let e := { e with chord := none }
    if now < chord.deadline then
      if key = .char chord.first then fireChord chord.first e else some e
    else plainKey now key e

def insertKey (key : Key) (e : Editor) : Option Editor :=
  match key with
  | .char c => insertChar c e
  | .tab => do insertChar ' ' (← insertChar ' ' (← insertChar ' ' (← insertChar ' ' e)))
  | .enter => breakLine e
  | .backspace => deleteBackward e
  | .delete => deleteForward e
  | .right => do
    let length ← lineLength e
    some { e with column := min (e.column + 1) length }
  | .up => moveUp e
  | .down => moveDown e
  | .finish => lineEnd e
  | key => some (e.insertKey key)

/-- The command line and the name of a file are typed without access to the buffer. -/
def handleKey (key : Key) (elapsed : Nat) (now : DateTime) (e : Editor) (m : Machine) :
    Option KeyOutcome :=
  match e.mode with
  | .normal => (normalKey elapsed key e).map (stay · m)
  | .insert => (insertKey key e).map (stay · m)
  | _ => some (e.handleKey key elapsed now m)

variable {e : Editor}

theorem currentLine_eq (h : e.line < e.lines.length) : currentLine e = some e.currentLine := by
  simp [currentLine, Editor.currentLine, h]

theorem lineLength_eq (h : e.line < e.lines.length) : lineLength e = some e.lineLength := by
  simp [lineLength, currentLine_eq h, Editor.lineLength]

theorem withLine_eq (h : e.line < e.lines.length) (line : List Char) :
    withLine line e = some (e.withLine line) := by
  simp [withLine, setAt_eq line h, Editor.withLine]

/-- The column may be the end of the line, where a letter is put in as well. -/
theorem insertChar_eq (h : e.Placed) (c : Char) : insertChar c e = some (e.insertChar c) := by
  have hcolumn : e.column ≤ e.currentLine.length := h.column
  simp [insertChar, currentLine_eq h.line, insertAt_eq c hcolumn, withLine_eq h.line,
    Editor.insertChar, Editor.withLine]

/-- The line is cut at its column, and what is behind it goes to a line of its own, which may be the
last one. -/
theorem breakLine_eq (h : e.Placed) : breakLine e = some e.breakLine := by
  have hcolumn : e.column ≤ e.currentLine.length := h.column
  have hline : e.line + 1 ≤ (e.lines.set e.line (e.currentLine.take e.column)).length := by
    have := h.line
    simp
    omega
  simp [breakLine, currentLine_eq h.line, splitAt_eq hcolumn, withLine_eq h.line,
    Editor.withLine, insertAt_eq _ hline, Editor.breakLine]

theorem deleteChar_eq (hline : e.line < e.lines.length) (hcolumn : e.column < e.lineLength) :
    deleteChar e = some e.deleteChar := by
  have hcolumn : e.column < e.currentLine.length := hcolumn
  simp [deleteChar, currentLine_eq hline, removeAt_eq hcolumn, withLine_eq hline,
    Editor.deleteChar]

/-- The next line is taken away once it stands behind this one too. -/
theorem joinNext_eq (h : e.line + 1 < e.lines.length) : joinNext e = some e.joinNext := by
  have hline : e.line < e.lines.length := by omega
  have hnext : e.lines[e.line + 1]? = some (e.lines.getD (e.line + 1) []) := by simp [h]
  have hremove : e.line + 1 <
      (e.lines.set e.line (e.currentLine ++ e.lines.getD (e.line + 1) [])).length := by
    simpa using h
  simp only [joinNext, hnext, currentLine_eq hline, withLine_eq hline, Editor.withLine,
    Option.bind_eq_bind, Option.bind_some, removeAt_eq hremove]
  rfl

/-- At the end of a line the next one is looked up only if there is one. -/
theorem deleteForward_eq (h : e.Placed) : deleteForward e = some e.deleteForward := by
  simp only [deleteForward, lineLength_eq h.line, Option.bind_eq_bind, Option.bind_some,
    Editor.deleteForward]
  split
  · next hcolumn => exact deleteChar_eq h.line hcolumn
  · split
    · next hnext => exact joinNext_eq (by simpa [hasNext] using hnext)
    · rfl

theorem lineEnd_eq (h : e.line < e.lines.length) : lineEnd e = some e.lineEnd := by
  simp [lineEnd, lineLength_eq h, Editor.lineEnd]

/-- At the start of a line the line before is measured, and there is one unless this is the first.
-/
theorem stepBack_eq (h : e.Placed) : stepBack e = some e.stepBack := by
  have hline : e.line - 1 < e.lines.length := by
    have := h.line
    omega
  unfold stepBack Editor.stepBack
  split
  · rfl
  · split
    · exact lineEnd_eq hline
    · rfl

theorem stepForward_eq (h : e.Placed) : stepForward e = some e.stepForward := by
  simp only [stepForward, lineLength_eq h.line, Option.bind_eq_bind, Option.bind_some,
    Editor.stepForward]
  split
  · rfl
  · split <;> rfl

/-- Before the cursor stands a letter of its line, or the end of a line that this one comes next to.
-/
theorem deleteBackward_eq (h : e.Placed) : deleteBackward e = some e.deleteBackward := by
  have hline := h.line
  have hcolumn := h.column
  unfold deleteBackward Editor.deleteBackward
  split
  · next hpositive =>
    have hbefore : e.column - 1 < e.lineLength := by omega
    exact deleteChar_eq hline hbefore
  · split
    · next hpositive =>
      have habove : e.line - 1 < e.lines.length := by omega
      have hnext : e.line - 1 + 1 < e.lines.length := by omega
      rw [lineEnd_eq habove]
      exact joinNext_eq hnext
    · rfl

/-- The line that is gone to is looked up only if it is there, so that this needs no place. -/
theorem moveTo_eq (line : Nat) : moveTo line e = some (e.moveTo line) := by
  unfold moveTo Editor.moveTo
  split
  · next hline =>
    have hlength : lineLength { e with line } = some (e.lines.getD line []).length :=
      lineLength_eq hline
    rw [hlength]
    rfl
  · rfl

theorem moveUp_eq : moveUp e = some e.moveUp := by
  unfold moveUp Editor.moveUp
  split
  · rfl
  · exact moveTo_eq _

theorem moveDown_eq : moveDown e = some e.moveDown := moveTo_eq _

/-- When the last line has gone there is a line before it, unless it is emptied only. -/
theorem deleteLine_eq (h : e.Placed) : deleteLine e = some e.deleteLine := by
  have hline := h.line
  unfold deleteLine Editor.deleteLine
  split
  · next hsingle =>
    obtain ⟨line, hlines⟩ := List.length_eq_one_iff.mp hsingle
    simp [hlines, setAt]
  · next hseveral =>
    have hlast : 1 ≤ (e.lines.eraseIdx e.line).length := by
      rw [List.length_eraseIdx_of_lt hline]
      omega
    simp [removeAt_eq hline, lastIndex_eq hlast]

theorem fireChord_eq (h : e.Placed) (first : Char) :
    fireChord first e = some (e.fireChord first) := by
  unfold fireChord Editor.fireChord
  split
  · rfl
  · simp [deleteLine_eq h]

theorem openLine_eq (h : e.Placed) : openLine e = some e.openLine := by
  have hline : e.line + 1 ≤ e.lines.length := h.line
  simp [openLine, insertAt_eq _ hline, Editor.openLine]

/-- Deleting in the line, as in normal mode. -/
theorem deleteInLine_eq (h : e.Placed) :
    (do if e.column < (← lineLength e) then deleteChar e else some e) =
      some (if e.column < e.lineLength then e.deleteChar else e) := by
  simp only [lineLength_eq h.line, Option.bind_eq_bind, Option.bind_some]
  split
  · next hcolumn => exact deleteChar_eq h.line hcolumn
  · rfl

/-- In normal mode without a chord each key is one step of those above. -/
theorem plainKey_eq (h : e.Placed) (now : Nat) (key : Key) :
    plainKey now key e = some (e.plainKey now key) := by
  have hlast : 1 ≤ e.lines.length := Nat.one_le_of_lt h.line
  unfold plainKey
  split
  · simp only [lineLength_eq h.line, Option.bind_eq_bind, Option.bind_some]
    rfl
  · exact openLine_eq h
  · exact stepBack_eq h
  · exact stepBack_eq h
  · exact stepForward_eq h
  · exact stepForward_eq h
  · exact moveDown_eq
  · exact moveDown_eq
  · exact moveUp_eq
  · exact moveUp_eq
  · exact lineEnd_eq h.line
  · exact lineEnd_eq h.line
  · simp only [lastIndex_eq hlast, Option.bind_eq_bind, Option.bind_some]
    rfl
  · exact deleteInLine_eq h
  · exact deleteInLine_eq h
  · rfl

/-- A chord that has lapsed, or that the key ends, is gone by then, and this moves nothing. -/
theorem normalKey_eq (h : e.Placed) (now : Nat) (key : Key) :
    normalKey now key e = some (e.normalKey now key) := by
  have hplaced : Placed { e with chord := none } := ⟨h.line, h.column, h.plain⟩
  unfold normalKey Editor.normalKey
  cases e.chord with
  | none => exact plainKey_eq h now key
  | some chord =>
    dsimp only
    split
    · split
      · exact fireChord_eq hplaced _
      · rfl
    · exact plainKey_eq hplaced now key

/-- Four blanks, each of them at the place behind the one before. -/
theorem insertTab_eq (h : e.Placed) : insertKey .tab e = some (e.insertKey .tab) := by
  have hblank : (' ' : Char) ≠ '\n' := by decide
  have hfirst := (follows_insertChar hblank h).placed
  have hsecond := (follows_insertChar hblank hfirst).placed
  have hthird := (follows_insertChar hblank hsecond).placed
  unfold insertKey
  simp only [insertChar_eq h, insertChar_eq hfirst, insertChar_eq hsecond, insertChar_eq hthird,
    Option.bind_eq_bind, Option.bind_some]
  rfl

/-- In insert mode too, each key is one step of those above. -/
theorem insertKey_eq (h : e.Placed) (key : Key) : insertKey key e = some (e.insertKey key) := by
  cases key with
  | char c => exact insertChar_eq h c
  | tab => exact insertTab_eq h
  | enter => exact breakLine_eq h
  | backspace => exact deleteBackward_eq h
  | delete => exact deleteForward_eq h
  | right =>
    unfold insertKey
    simp only [lineLength_eq h.line, Option.bind_eq_bind, Option.bind_some]
    rfl
  | up => exact moveUp_eq
  | down => exact moveDown_eq
  | finish => exact lineEnd_eq h.line
  | escape | interrupt | left | home => rfl

/-- At a place of the buffer no key makes an access out of range. -/
theorem handleKey_eq (h : e.Placed) (key : Key) (elapsed : Nat) (now : DateTime) (m : Machine) :
    handleKey key elapsed now e m = some (e.handleKey key elapsed now m) := by
  unfold handleKey
  split
  · next hmode => simp [normalKey_eq h, Editor.handleKey, hmode]
  · next hmode => simp [insertKey_eq h, Editor.handleKey, hmode]
  · rfl

end PocketUnix.Editor.Checked
