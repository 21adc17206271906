import PocketUnix.Command.Call
import PocketUnix.Command.Name

/-!
# Commands of the session

Help, the history of lines, and requests to clear the transcript or to open the editor.
-/

namespace PocketUnix.Desk

def help : Reply :=
  .info (s!"Supported Commands ({Command.table.length}):\n\n" ++ ", ".intercalate Command.names)

def noManual (topic : String) : Reply :=
  .output s!"No manual entry for {topic}. This is a simulator."

def history (c : Call) : Reply :=
  .lines ((c.history.zipIdx 1).map fun (line, k) => s!"{k}  {line}")

/-- Asks for the editor, with the file to which an operand leads. A link that leads nowhere is
taken for the file itself. -/
def openEditor (c : Call) (m : Machine) : Answer :=
  match (c.options "").operand? 0 with
  | none => .ok (.asking (.edit ⟨none, ""⟩))
  | some operand =>
    let p := m.resolve operand
    let target := (m.root.resolveLinks m.user p).getD p
    match m.root.get? target with
    | some (.directory ..) => .error (.invalid (.editsDirectory operand))
    | some (.file _ content) => .ok (.asking (.edit ⟨some target, content⟩))
    | _ => .ok (.asking (.edit ⟨some target, ""⟩))

def run (command : SessionCommand) (c : Call) (m : Machine) : Outcome :=
  match command with
  | .help => .reply m help
  | .man => .reply m (noManual (c.args.headD "command"))
  | .clear => .reply m (.asking .clear)
  | .history => .reply m (history c)
  | .vim => .ofQuery m (openEditor c m)
  | .vi => .ofQuery m (openEditor c m)
  | .nano => .ofQuery m (openEditor c m)

end PocketUnix.Desk
