import PocketUnix.Shell.Options
import PocketUnix.Shell.Reply

/-!
# Calls of commands

What a command is given besides the machine, and the ways in which all commands read and write
files that are named by operands.
-/

namespace PocketUnix

structure Call where
  name : String
  args : List String
  /-- The text piped in. -/
  stdin : String
  now : DateTime
  /-- The lines submitted before, oldest first. -/
  history : List String

/-- What a command that only looks can answer. -/
abbrev Answer := Except Fault Reply

/-- What a command does to the tree. -/
abbrev TreeAction := Action Node Reply

/-- What a command does to the system tables. -/
abbrev SystemAction := Action System Reply

namespace Node

/-- Puts a node into a directory, for a command that was given an operand. -/
def insertFor (command operand : String) (parent : Path) (entry : Node) : Action Node Unit :=
  .update fun root =>
    match root.insert parent entry with
    | .ok root => .ok ((), root)
    | .error fault => .error (.ofTree command operand fault)

/-- Takes a node out of the tree, for a command that was given an operand. -/
def removeFor (command operand : String) (p : Path) : Action Node Node :=
  .update fun root => (root.remove p).mapError (.ofTree command operand)

end Node

namespace Call

/-- The options of the call; the letters of the text take values. -/
def options (c : Call) (valued : String) : Shell.Options := .ofArgs valued c.args

/-- The text of the file to which an operand leads. -/
def readFile (c : Call) (m : Machine) (operand : String) : Except Fault String :=
  match m.root.readText m.user (m.resolve operand) with
  | .ok text => .ok text
  | .error .isADirectory => .error (.invalid (.isDirectory c.name operand))
  | .error _ => .error (.notFound (.read c.name operand))

/-- The file of an operand, or what is piped in if there is no operand or only a dash. -/
def readInput (c : Call) (m : Machine) (operand : Option String) : Except Fault String :=
  match operand with
  | none => .ok c.stdin
  | some name => if name = "-" then .ok c.stdin else c.readFile m name

/-- Why a file cannot be written. -/
def writeFault (c : Call) (operand : String) : TreeFault → Fault
  | .isADirectory => .invalid (.isDirectory c.name operand)
  | _ => .notFound (.used c.name operand)

/-- Writes text to the file of an operand, or appends it. -/
def writeFile (c : Call) (m : Machine) (operand text : String) (appending : Bool) :
    Action Node Unit :=
  let p := m.resolve operand
  .update fun root =>
    let result :=
      if appending then root.append p m.user m.group c.now text
      else root.write p m.user m.group c.now text
    match result with
    | .ok root => .ok ((), root)
    | .error fault => .error (c.writeFault operand fault)

end Call

end PocketUnix
