import PocketUnix.Machine
import PocketUnix.Shell.Action

/-!
# Replies of commands

A command answers with text, and may ask its session for more than showing it. A command that
fails may still have changed the machine, so that an outcome always holds one.
-/

namespace PocketUnix

/-- How the lines of a transcript are meant. -/
inductive Tone where
  | input | output | error | info
  deriving DecidableEq, Repr

def Tone.name : Tone → String
  | .input => "input"
  | .output => "output"
  | .error => "error"
  | .info => "info"

/-- A file, if there is one yet, with the text to edit. -/
structure EditRequest where
  target : Option Path
  content : String
  deriving DecidableEq, Repr

inductive Effect where
  | clear
  | edit (request : EditRequest)
  deriving DecidableEq, Repr

structure Reply where
  tone : Tone
  text : String
  effect : Option Effect
  deriving DecidableEq, Repr

namespace Reply

def output (text : String) : Reply := ⟨.output, text, none⟩

def info (text : String) : Reply := ⟨.info, text, none⟩

def empty : Reply := output ""

def lines (rows : List String) : Reply := output (Text.joinLines rows)

def asking (effect : Effect) : Reply := ⟨.output, "", some effect⟩

end Reply

namespace Action

variable {α : Type}

/-- Work on the tree, as work on the machine. -/
def onTree (action : Action Node α) : Action Machine α := fun m =>
  match action m.root with
  | .ok a root => .ok a { m with root }
  | .error fault root => .error fault { m with root }

/-- Work on the system tables, as work on the machine. -/
def onSystem (action : Action System α) : Action Machine α := fun m =>
  match action m.system with
  | .ok a system => .ok a { m with system }
  | .error fault system => .error fault { m with system }

end Action

/-- The answer of a command with the machine that it leaves. -/
structure Outcome where
  answer : Except Fault Reply
  machine : Machine

namespace Outcome

def fail (m : Machine) (fault : Fault) : Outcome := ⟨.error fault, m⟩

def reply (m : Machine) (r : Reply) : Outcome := ⟨.ok r, m⟩

/-- The outcome of a command that only looks. -/
def ofQuery (m : Machine) (answer : Except Fault Reply) : Outcome := ⟨answer, m⟩

/-- The outcome of work on the machine. -/
def ofAction (m : Machine) (action : Action Machine Reply) : Outcome :=
  match action m with
  | .ok r m => ⟨.ok r, m⟩
  | .error fault m => ⟨.error fault, m⟩

/-- The outcome of work on the tree only. -/
def ofTree (m : Machine) (action : Action Node Reply) : Outcome := .ofAction m action.onTree

/-- The outcome of work on the system tables only. -/
def ofSystem (m : Machine) (action : Action System Reply) : Outcome :=
  .ofAction m action.onSystem

end Outcome

end PocketUnix
