import PocketUnix.Json.Printer
import PocketUnix.Session.Basic

/-!
# Consoles

A session that is given whole lines. A line that ends with a tab asks for completion; while the
editor is open, a line is a key script. What is new in the transcript is printed after each line.
-/

namespace PocketUnix

structure Console where
  session : Session
  /-- The lines of the transcript that are printed already. -/
  printed : Nat
  /-- On a terminal the lines that were typed stand there already and are not printed. -/
  onTerminal : Bool

namespace Console

/-- What stands in front of the next line on a terminal. -/
def prompt (c : Console) : String :=
  match c.session.editor with
  | none => c.session.prompt
  | some editor => "[" ++ editor.mode.name ++ "] "

/-- Prints what is new, or all of a transcript that has been cleared. -/
def flush (c : Console) : List String × Console :=
  let transcript := c.session.transcript
  let fresh := transcript.drop (if transcript.length < c.printed then 0 else c.printed)
  let shown := if c.onTerminal then fresh.filter fun line => line.tone ≠ .input else fresh
  (shown.map Line.text, { c with printed := transcript.length })

/-- The buffer under the name of its file, with a mark at the cursor's line. -/
def bufferRows (editor : Editor) : List String :=
  let name := match editor.target with
    | some p => p.display
    | none => "[No Name]"
  let row (k : Nat) (line : List Char) : String :=
    .ofList ((if k = editor.line then '>' else ' ') :: line)
  s!"--- {name} ---" :: editor.lines.mapIdx row

/-- The editor after a line: its buffer when it has just been opened, and its status. -/
def editorRows (wasEditing : Bool) (s : Session) : List String :=
  match s.editor with
  | none => []
  | some editor =>
    let buffer := if wasEditing then [] else bufferRows editor
    if editor.status = "" then buffer else buffer ++ [editor.status]

/-- Hands a line to the session, with the completed line if that was asked for. Keys behind the
one that closes the editor are lost. -/
def enter (line : String) (s : Session) : List String × Session :=
  if s.isEditing then
    ([], (Key.ofScript line).foldl (fun s key => s.editorKey key) s.tick)
  else
    match Text.stripEnd? "\t" line with
    | none => ([], s.submitLine line)
    | some start =>
      match s.requestCompletion start (Text.byteLength start) with
      | (.edited text _, s) => ([text], s)
      | (_, s) => ([], s)

/-- Takes a line and prints what follows from it. -/
def feed (line : String) (c : Console) : List String × Console :=
  let (completed, session) := enter line c.session
  let (shown, c') := flush { c with session }
  (completed ++ shown ++ editorRows c.session.isEditing c'.session, c')

def feedAll : List String → Console → List String × Console
  | [], c => ([], c)
  | line :: rest, c =>
    let (shown, c) := c.feed line
    let (later, c) := feedAll rest c
    (shown ++ later, c)

/-- A session at its start, with the lines that it prints. -/
def opening (onTerminal : Bool) (session : Session) : List String × Console :=
  flush ⟨session, 0, onTerminal⟩

/-- The transcript as a JSON array. -/
def transcriptText (c : Console) : String :=
  let entry (line : Line) : Json :=
    .object [("kind", .string line.tone.name), ("text", .string line.text)]
  (Json.array (c.session.transcript.map entry)).pretty

end Console

end PocketUnix
