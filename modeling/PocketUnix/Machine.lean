import PocketUnix.System
import PocketUnix.Calendar.Format
import PocketUnix.Tree.Store

/-!
# The machine

All that commands read and change: the file tree, the system tables and the working directory.
-/

namespace PocketUnix

structure Machine where
  root : Node
  system : System
  cwd : Path

namespace Machine

def user (m : Machine) : String := m.system.currentUser

def group (m : Machine) : String := m.system.currentGroup

def resolve (m : Machine) (text : String) : Path := m.cwd.resolve m.user text

def home (m : Machine) : Path := Path.home m.user

/-- The node that a text names, if there is one. -/
def node? (m : Machine) (text : String) : Option Node := m.root.get? (m.resolve text)

/-- What stands before a command line: user, host and working directory. -/
def prompt (m : Machine) : String :=
  m.user ++ "@" ++ m.system.hostname ++ ":" ++ m.cwd.displayFor m.user ++ "$ "

end Machine

end PocketUnix
