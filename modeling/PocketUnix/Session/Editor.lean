import PocketUnix.Session.Key
import PocketUnix.Shell.Reply

/-!
# The editor

A buffer of lines with a cursor, and the modes in which keys move, type, give commands or name a
file. The first key of a chord waits for the second one until its deadline.
-/

namespace PocketUnix

inductive Mode where
  | normal | insert | command | promptForFilename
  deriving DecidableEq, Repr

def Mode.name : Mode → String
  | .normal => "Normal"
  | .insert => "Insert"
  | .command => "Command"
  | .promptForFilename => "PromptForFilename"

/-- What to do once the file has a name. -/
inductive SaveAction where
  | write | writeQuit
  deriving DecidableEq, Repr

inductive Exit where
  | stay
  | close (notice : Option String)
  deriving DecidableEq, Repr

inductive EditorFault where
  | noFileName
  | cannotWrite
  | unsaved
  | unknownCommand (command : String)
  deriving DecidableEq, Repr

def EditorFault.message : EditorFault → String
  | .noFileName => "E32: No file name"
  | .cannotWrite => "E212: Can't open file for writing"
  | .unsaved => "E37: No write since last change (add ! to override)"
  | .unknownCommand command => "E492: Not an editor command: " ++ command

/-- The first key of a chord and the time at which it lapses. -/
structure Chord where
  first : Char
  deadline : Nat
  deriving DecidableEq, Repr

structure Editor where
  lines : List (List Char)
  line : Nat
  column : Nat
  mode : Mode
  /-- The command line, or the name that is being typed. -/
  command : List Char
  status : String
  target : Option Path
  chord : Option Chord
  pendingSave : Option SaveAction
  /-- The milliseconds that the second key of a chord may take. -/
  chordTimeout : Nat
  deriving DecidableEq, Repr

/-- What is left behind by a key. -/
structure KeyOutcome where
  editor : Editor
  exit : Exit
  machine : Machine

namespace Editor

def start (request : EditRequest) (chordTimeout : Nat) : Editor where
  lines := request.content.toList.splitOn '\n'
  line := 0
  column := 0
  mode := .normal
  command := []
  status := ""
  target := request.target
  chord := none
  pendingSave := none
  chordTimeout

/-- The lines with newlines between them. -/
def content (e : Editor) : List Char := ['\n'].intercalate e.lines

def text (e : Editor) : String := .ofList e.content

/-- Drops a chord that has lapsed. -/
def tick (now : Nat) (e : Editor) : Editor :=
  match e.chord with
  | some chord => if chord.deadline ≤ now then { e with chord := none } else e
  | none => e

def currentLine (e : Editor) : List Char := e.lines.getD e.line []

def lineLength (e : Editor) : Nat := e.currentLine.length

def withLine (line : List Char) (e : Editor) : Editor := { e with lines := e.lines.set e.line line }

def insertChar (c : Char) (e : Editor) : Editor :=
  { e.withLine (e.currentLine.insertIdx e.column c) with column := e.column + 1 }

def breakLine (e : Editor) : Editor :=
  let e' := e.withLine (e.currentLine.take e.column)
  { e' with
    lines := e'.lines.insertIdx (e.line + 1) (e.currentLine.drop e.column)
    line := e.line + 1
    column := 0 }

/-- Removes the character at the cursor, but no line end. -/
def deleteChar (e : Editor) : Editor := e.withLine (e.currentLine.eraseIdx e.column)

/-- Joins the next line to this one. -/
def joinNext (e : Editor) : Editor :=
  let next := e.lines.getD (e.line + 1) []
  let e' := e.withLine (e.currentLine ++ next)
  { e' with lines := e'.lines.eraseIdx (e.line + 1) }

def hasNext (e : Editor) : Bool := e.line + 1 < e.lines.length

def deleteForward (e : Editor) : Editor :=
  if e.column < e.lineLength then e.deleteChar else if e.hasNext then e.joinNext else e

def lineEnd (e : Editor) : Editor := { e with column := e.lineLength }

/-- One place back, to the end of the line before at the start of a line. -/
def stepBack (e : Editor) : Editor :=
  if 0 < e.column then { e with column := e.column - 1 }
  else if 0 < e.line then lineEnd { e with line := e.line - 1 }
  else e

/-- One place on, to the start of the next line at the end of a line. -/
def stepForward (e : Editor) : Editor :=
  if e.column < e.lineLength then { e with column := e.column + 1 }
  else if e.hasNext then { e with line := e.line + 1, column := 0 }
  else e

def deleteBackward (e : Editor) : Editor :=
  if 0 < e.column then deleteChar { e with column := e.column - 1 }
  else if 0 < e.line then joinNext (lineEnd { e with line := e.line - 1 })
  else e

def moveTo (line : Nat) (e : Editor) : Editor :=
  if line < e.lines.length then
    { e with line, column := min e.column (e.lines.getD line []).length }
  else e

def moveUp (e : Editor) : Editor := if e.line = 0 then e else e.moveTo (e.line - 1)

def moveDown (e : Editor) : Editor := e.moveTo (e.line + 1)

/-- The last line is not deleted but emptied. -/
def deleteLine (e : Editor) : Editor :=
  if e.lines.length = 1 then { e with lines := [[]], column := 0 }
  else
    let lines := e.lines.eraseIdx e.line
    { e with lines, line := min e.line (lines.length - 1), column := 0 }

def enterInsert (e : Editor) : Editor := { e with mode := .insert, status := "-- INSERT --" }

def fireChord (first : Char) (e : Editor) : Editor :=
  if first = 'g' then { e with line := 0, column := 0 }
  else { e.deleteLine with status := "1 line deleted" }

def openLine (e : Editor) : Editor :=
  enterInsert { e with lines := e.lines.insertIdx (e.line + 1) [], line := e.line + 1, column := 0 }

/-- A key in normal mode while no chord is waiting. -/
def plainKey (now : Nat) (key : Key) (e : Editor) : Editor :=
  match key with
  | .char 'i' => e.enterInsert
  | .char 'a' => enterInsert { e with column := min (e.column + 1) e.lineLength }
  | .char 'o' => e.openLine
  | .char ':' => { e with mode := .command, command := [':'] }
  | .char 'h' | .left => e.stepBack
  | .char 'l' | .right => e.stepForward
  | .char 'j' | .down => e.moveDown
  | .char 'k' | .up => e.moveUp
  | .char '0' | .home => { e with column := 0 }
  | .char '$' | .finish => e.lineEnd
  | .char 'G' => { e with line := e.lines.length - 1, column := 0 }
  | .char 'x' | .delete => if e.column < e.lineLength then e.deleteChar else e
  | .char 'g' => { e with chord := some ⟨'g', now + e.chordTimeout⟩ }
  | .char 'd' => { e with chord := some ⟨'d', now + e.chordTimeout⟩ }
  | .escape => { e with status := "" }
  | _ => e

/-- Within the time of a chord, a key completes it or is lost. -/
def normalKey (now : Nat) (key : Key) (e : Editor) : Editor :=
  match e.chord with
  | none => e.plainKey now key
  | some chord =>
    let e := { e with chord := none }
    if now < chord.deadline then
      if key = .char chord.first then e.fireChord chord.first else e
    else e.plainKey now key

def insertKey (key : Key) (e : Editor) : Editor :=
  match key with
  | .escape | .interrupt => { e with mode := .normal, status := "" }
  | .char c => e.insertChar c
  | .tab => (((e.insertChar ' ').insertChar ' ').insertChar ' ').insertChar ' '
  | .enter => e.breakLine
  | .backspace => e.deleteBackward
  | .delete => e.deleteForward
  | .left => { e with column := e.column - 1 }
  | .right => { e with column := min (e.column + 1) e.lineLength }
  | .up => e.moveUp
  | .down => e.moveDown
  | .home => { e with column := 0 }
  | .finish => e.lineEnd

def stay (e : Editor) (m : Machine) : KeyOutcome := ⟨e, .stay, m⟩

def refuse (fault : EditorFault) (e : Editor) (m : Machine) : KeyOutcome :=
  stay { e with status := fault.message } m

/-- Lines and bytes of the buffer. -/
def summary (e : Editor) : String := s!"{e.lines.length}L, {Text.byteLength e.text}C"

/-- Writes the buffer to a path, which becomes the target of the editor. -/
def save (p : Path) (action : SaveAction) (now : DateTime) (e : Editor) (m : Machine) :
    KeyOutcome :=
  match m.root.write p m.user m.group now e.text with
  | .error _ => e.refuse .cannotWrite m
  | .ok root =>
    let name := p.name?.getD ""
    let status := s!"\"{name}\" {e.summary} written"
    let e := { e with target := some p, status }
    match action with
    | .write => ⟨e, .stay, { m with root }⟩
    | .writeQuit =>
      ⟨e, .close (some s!"\"{p.display}\" saved. {e.summary} written"), { m with root }⟩

/-- Saves under a name, else to the target, else asks for a name. -/
def writeCommand (name : Option String) (action : SaveAction) (now : DateTime) (e : Editor)
    (m : Machine) : KeyOutcome :=
  match name.map m.resolve, e.target with
  | some p, _ => e.save p action now m
  | none, some p => e.save p action now m
  | none, none =>
    stay { e with pendingSave := some action, command := [], mode := .promptForFilename } m

/-- The verb of a command and its argument, if that is not blank. -/
def splitCommand (command : String) : String × Option String :=
  match Text.cutWhere? Chars.isBlank command with
  | none => (command, none)
  | some (verb, argument) =>
    let argument := Text.trim argument
    (verb, if argument = "" then none else some argument)

def runCommand (command : String) (now : DateTime) (e : Editor) (m : Machine) : KeyOutcome :=
  let (verb, argument) := splitCommand command
  if verb = "" then stay e m
  else if verb = "w" ∨ verb = "w!" then e.writeCommand argument .write now m
  else if verb = "wq" ∨ verb = "x" ∨ verb = "wq!" then e.writeCommand argument .writeQuit now m
  else if verb = "q" then
    if e.target.isSome || e.text = "" then ⟨e, .close none, m⟩ else e.refuse .unsaved m
  else if verb = "q!" then ⟨e, .close none, m⟩
  else e.refuse (.unknownCommand command) m

def commandKey (key : Key) (now : DateTime) (e : Editor) (m : Machine) : KeyOutcome :=
  match key with
  | .escape | .interrupt => stay { e with command := [], mode := .normal } m
  | .backspace =>
    let command := e.command.dropLast
    stay { e with command, mode := if command.isEmpty then .normal else e.mode } m
  | .char c => stay { e with command := e.command ++ [c] } m
  | .enter =>
    let command := Chars.trim (e.command.dropWhile (· == ':'))
    runCommand (.ofList command) now { e with command := [], mode := .normal } m
  | _ => stay e m

def promptKey (key : Key) (now : DateTime) (e : Editor) (m : Machine) : KeyOutcome :=
  match key with
  | .escape | .interrupt =>
    stay { e with pendingSave := none, command := [], mode := .normal } m
  | .backspace => stay { e with command := e.command.dropLast } m
  | .char c => stay { e with command := e.command ++ [c] } m
  | .enter =>
    let name := Chars.trim e.command
    let action := e.pendingSave.getD .write
    let e := { e with pendingSave := none, command := [], mode := .normal }
    if name.isEmpty then e.refuse .noFileName m
    else e.save (m.resolve (.ofList name)) action now m
  | _ => stay e m

/-- Handles a key at an elapsed time, with the time of day for the files that it saves. -/
def handleKey (key : Key) (elapsed : Nat) (now : DateTime) (e : Editor) (m : Machine) :
    KeyOutcome :=
  match e.mode with
  | .normal => stay (e.normalKey elapsed key) m
  | .insert => stay (e.insertKey key) m
  | .command => e.commandKey key now m
  | .promptForFilename => e.promptKey key now m

end Editor

end PocketUnix
