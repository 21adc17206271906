import PocketUnix.Calendar.DateTime
import PocketUnix.Path
import PocketUnix.Permissions
import PocketUnix.Table
import PocketUnix.Text.Offset

/-!
# Nodes of the file tree

A node is a file, a directory with a table of nodes, or a symbolic link. A node knows its name, and
a directory keeps each of its nodes under the name that the node had when it was put there.
-/

namespace PocketUnix

structure Attributes where
  name : String
  permissions : String
  owner : String
  group : String
  modified : DateTime
  deriving DecidableEq, Repr

inductive Node where
  | file (attributes : Attributes) (content : String)
  | directory (attributes : Attributes) (entries : List (String × Node))
  | link (attributes : Attributes) (target : String)

namespace Node

def newFile (name owner group : String) (now : DateTime) (content : String) : Node :=
  .file ⟨name, Permissions.file, owner, group, now⟩ content

def newDirectory (name owner group : String) (now : DateTime) : Node :=
  .directory ⟨name, Permissions.directory, owner, group, now⟩ []

def newLink (name owner group : String) (now : DateTime) (target : String) : Node :=
  .link ⟨name, Permissions.link, owner, group, now⟩ target

def attributes : Node → Attributes
  | .file attributes _ => attributes
  | .directory attributes _ => attributes
  | .link attributes _ => attributes

def name (n : Node) : String := n.attributes.name

def withAttributes (attributes : Attributes) : Node → Node
  | .file _ content => .file attributes content
  | .directory _ entries => .directory attributes entries
  | .link _ target => .link attributes target

@[simp] theorem attributes_withAttributes (attributes : Attributes) (n : Node) :
    (n.withAttributes attributes).attributes = attributes := by
  cases n <;> rfl

@[simp] theorem withAttributes_attributes (n : Node) : n.withAttributes n.attributes = n := by
  cases n <;> rfl

def updateAttributes (f : Attributes → Attributes) (n : Node) : Node :=
  n.withAttributes (f n.attributes)

def renamed (name : String) (n : Node) : Node :=
  n.updateAttributes fun attributes => { attributes with name }

@[simp] theorem name_renamed (name : String) (n : Node) : (n.renamed name).name = name := by
  cases n <;> rfl

def touch (now : DateTime) (n : Node) : Node :=
  n.updateAttributes fun attributes => { attributes with modified := now }

def isFile : Node → Bool
  | .file .. => true
  | _ => false

def isDirectory : Node → Bool
  | .directory .. => true
  | _ => false

def isLink : Node → Bool
  | .link .. => true
  | _ => false

def content? : Node → Option String
  | .file _ content => some content
  | _ => none

def target? : Node → Option String
  | .link _ target => some target
  | _ => none

def entries? : Node → Option (Table Node)
  | .directory _ entries => some entries
  | _ => none

/-- The entries of a directory; other nodes have none. -/
def entries (n : Node) : Table Node := n.entries?.getD []

/-- Bytes of a file or of a link's target; a directory takes a block. -/
def size : Node → Nat
  | .file _ content => Text.byteLength content
  | .directory .. => 4096
  | .link _ target => Text.byteLength target

/-- A directory with one more entry, in place of one of the same name. -/
def withEntry (entry : Node) : Node → Node
  | .directory attributes entries =>
    .directory attributes (Table.insert entry.name entry entries)
  | n => n

/-- A directory without the entry of a name. -/
def withoutEntry (name : String) : Node → Node
  | .directory attributes entries => .directory attributes (Table.erase name entries)
  | n => n

end Node

end PocketUnix
