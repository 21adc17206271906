import PocketUnix.Seed
import PocketUnix.Session.Clock
import PocketUnix.Session.Completion
import PocketUnix.Session.Editor
import PocketUnix.Session.Pipeline
import PocketUnix.Session.PromptLine

/-!
# Sessions

A machine with a transcript, a prompt line and at times an open editor.
-/

namespace PocketUnix

structure Line where
  tone : Tone
  text : String
  deriving DecidableEq, Repr

abbrev Transcript := List Line

structure Session where
  config : Config
  clock : Clock
  machine : Machine
  transcript : Transcript
  editor : Option Editor
  input : PromptLine
  /-- The lines submitted since the transcript was cleared. -/
  submitted : List String

namespace Session

def banner : Transcript := [
  ⟨.info, "Terminus Linux Shell [Version 1.0.0]"⟩,
  ⟨.info, s!"Copyright (c) 2024 Terminus Systems. Type 'help' to see all " ++
    s!"{Command.table.length} supported commands."⟩,
  ⟨.output, ""⟩]

def start (config : Config) (clock : Clock) : Except ConfigFault Session := do
  config.validate
  let machine ← Seed.machine clock.now config
  .ok {
    config, clock, machine
    transcript := if config.showBanner then banner else []
    editor := none
    input := {}
    submitted := [] }

/-- A session whose clock starts at the time that its settings fix, or else at the usual one. -/
def new (config : Config) (usual : DateTime) : Except ConfigFault Session := do
  let moment ← config.fixedMoment
  start config (.startingAt (moment.getD usual))

def isEditing (s : Session) : Bool := s.editor.isSome

def prompt (s : Session) : String := s.machine.prompt

def push (tone : Tone) (text : String) (s : Session) : Session :=
  { s with transcript := s.transcript ++ [⟨tone, text⟩] }

/-- Clearing empties the transcript and forgets the submitted lines. -/
def applyEffect (s : Session) : Effect → Session
  | .clear => { s with transcript := [], submitted := [] }
  | .edit request => { s with editor := some (.start request s.config.chordTimeout) }

/-- Shows an answer, unless it is empty. -/
def showAnswer (answer : Except Fault Reply) (s : Session) : Session :=
  match answer with
  | .ok reply => if reply.text = "" then s else s.push reply.tone reply.text
  | .error fault => s.push .error fault.message

/-- Runs a line, unless the editor is open. A blank line only shows the prompt again. -/
def submitLine (line : String) (s : Session) : Session :=
  if s.isEditing then s
  else
    let command := Text.trim line
    if command = "" then s.push .input s.prompt
    else
      let shown := s.push .input (s.prompt ++ line)
      let evaluation := Evaluation.ofLine s.clock.now s.submitted command s.machine
      let ran :=
        { shown with machine := evaluation.machine, submitted := s.submitted ++ [command] }
      (evaluation.effects.foldl applyEffect ran).showAnswer evaluation.answer

/-- Completes a line; a listing is also shown. -/
def requestCompletion (text : String) (cursor : Nat) (s : Session) : Completion × Session :=
  let completion := Completion.complete text cursor s.machine
  match completion with
  | .listing candidates =>
    (completion, (s.push .input (s.prompt ++ text)).push .output ("  ".intercalate candidates))
  | _ => (completion, s)

/-- Feeds a key to the open editor at an elapsed time. -/
def editorKeyAt (key : Key) (elapsed : Nat) (s : Session) : Session :=
  match s.editor with
  | none => s
  | some editor =>
    let outcome := editor.handleKey key elapsed s.clock.now s.machine
    let s := { s with machine := outcome.machine }
    match outcome.exit with
    | .stay => { s with editor := some outcome.editor }
    | .close none => { s with editor := none }
    | .close (some notice) => push .info notice { s with editor := none }

def editorKey (key : Key) (s : Session) : Session := s.editorKeyAt key s.clock.elapsed

/-- Lapses a chord whose time is over. -/
def tick (s : Session) : Session :=
  { s with editor := s.editor.map (Editor.tick s.clock.elapsed) }

/-- Shows the line that is given up and clears it. -/
def interrupt (s : Session) : Session :=
  let shown := s.push .input (s.prompt ++ s.input.text ++ "^C")
  { shown with input := s.input.reset }

def completeInput (s : Session) : Session :=
  match s.requestCompletion s.input.text s.input.cursor with
  | (.edited text cursor, s) => { s with input := s.input.set text cursor }
  | (_, s) => s

def promptKey (key : Key) (s : Session) : Session :=
  match key with
  | .char c => { s with input := s.input.insertChar c }
  | .backspace => { s with input := s.input.backspace }
  | .delete => { s with input := s.input.delete }
  | .left => { s with input := s.input.left }
  | .right => { s with input := s.input.right }
  | .home => { s with input := s.input.home }
  | .finish => { s with input := s.input.finish }
  | .up => { s with input := s.input.previous }
  | .down => { s with input := s.input.next }
  | .tab => s.completeInput
  | .enter => submitLine s.input.text { s with input := s.input.submit }
  | .interrupt => s.interrupt
  | .escape => s

/-- A key goes to the editor if it is open, else to the prompt line. -/
def handleKey (key : Key) (s : Session) : Session :=
  if s.isEditing then s.editorKey key else s.promptKey key

def advance (ms : Nat) (s : Session) : Session := { s with clock := s.clock.advance ms }

end Session

end PocketUnix
