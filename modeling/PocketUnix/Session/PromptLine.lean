import PocketUnix.Text.Basic
import PocketUnix.Text.Offset

/-!
# The prompt line

The line that is being typed, with a cursor that counts bytes, and the lines submitted before.
Recalling one of these keeps the line that was being typed as a draft.
-/

namespace PocketUnix

structure Recall where
  /-- The entry that is shown. -/
  index : Nat
  draft : String
  deriving DecidableEq, Repr

structure PromptLine where
  text : String := ""
  cursor : Nat := 0
  /-- Submitted lines, oldest first. -/
  history : List String := []
  recalled : Option Recall := none
  deriving DecidableEq, Repr

namespace PromptLine

/-- What stands before and after the cursor. -/
def sides (p : PromptLine) : List Char × List Char := Chars.cut p.cursor p.text.toList

/-- The line with this text before and after the cursor. -/
def withSides (before after : List Char) (p : PromptLine) : PromptLine :=
  { p with text := .ofList (before ++ after), cursor := Chars.byteLength before }

/-- Replaces the line; a cursor inside a character moves back to its start. -/
def set (text : String) (cursor : Nat) (p : PromptLine) : PromptLine :=
  { p with text, cursor := Chars.byteLength (Chars.cut cursor text.toList).1 }

def insertChar (c : Char) (p : PromptLine) : PromptLine :=
  if Chars.isControl c then p
  else
    let (before, after) := p.sides
    p.withSides (before ++ [c]) after

def backspace (p : PromptLine) : PromptLine :=
  let (before, after) := p.sides
  p.withSides before.dropLast after

def delete (p : PromptLine) : PromptLine :=
  let (before, after) := p.sides
  p.withSides before after.tail

def left (p : PromptLine) : PromptLine :=
  match p.sides.1.getLast? with
  | some c => { p with cursor := p.cursor - c.utf8Size }
  | none => p

def right (p : PromptLine) : PromptLine :=
  match p.sides.2 with
  | c :: _ => { p with cursor := p.cursor + c.utf8Size }
  | [] => p

def home (p : PromptLine) : PromptLine := { p with cursor := 0 }

def finish (p : PromptLine) : PromptLine := { p with cursor := Text.byteLength p.text }

/-- The line with the cursor at its end. -/
def showLine (text : String) (p : PromptLine) : PromptLine := p.set text (Text.byteLength text)

/-- Shows an entry of the history. -/
def recallEntry (index : Nat) (draft : String) (p : PromptLine) : PromptLine :=
  showLine (p.history.getD index "") { p with recalled := some ⟨index, draft⟩ }

/-- One entry back in the history. -/
def previous (p : PromptLine) : PromptLine :=
  match p.recalled with
  | some r => p.recallEntry (r.index - 1) r.draft
  | none => if p.history.isEmpty then p else p.recallEntry (p.history.length - 1) p.text

/-- One entry on; behind the newest one the draft comes back. -/
def next (p : PromptLine) : PromptLine :=
  match p.recalled with
  | none => p
  | some r =>
    if r.index + 1 < p.history.length then p.recallEntry (r.index + 1) r.draft
    else showLine r.draft { p with recalled := none }

/-- Clears the line and ends recall. -/
def reset (p : PromptLine) : PromptLine := { p with text := "", cursor := 0, recalled := none }

/-- Clears the line and remembers it, unless it is blank or repeats the newest entry. -/
def submit (p : PromptLine) : PromptLine :=
  let line := Text.trim p.text
  if line = "" ∨ p.history.getLast? = some line then p.reset
  else reset { p with history := p.history ++ [line] }

end PromptLine

end PocketUnix
