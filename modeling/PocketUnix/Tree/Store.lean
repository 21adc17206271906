import PocketUnix.Tree.Node

/-!
# Reading and changing the tree by paths

Every change gives a new tree or says why there is none.
-/

namespace PocketUnix

inductive TreeFault where
  | parentMissing | notADirectory | isADirectory | missing | root
  deriving DecidableEq, Repr

def TreeFault.message : TreeFault → String
  | .parentMissing => "parent directory does not exist"
  | .notADirectory => "not a directory"
  | .isADirectory => "is a directory"
  | .missing => "no such file or directory"
  | .root => "the root directory cannot be replaced"

namespace Node

/-- The node at a path below this one. -/
def get? (n : Node) : Path → Option Node
  | [] => some n
  | name :: rest =>
    match n with
    | .directory _ entries =>
      match Table.get? name entries with
      | some entry => entry.get? rest
      | none => none
    | _ => none

/-- Changes the node at a path, if there is one. -/
def modify (f : Node → Node) (n : Node) : Path → Node
  | [] => f n
  | name :: rest =>
    match n with
    | .directory attributes entries =>
      match Table.get? name entries with
      | some entry => .directory attributes (Table.insert name (entry.modify f rest) entries)
      | none => n
    | _ => n

@[simp] theorem get?_nil (n : Node) : n.get? [] = some n := rfl

/-- A path is followed part by part. -/
theorem get?_append (n : Node) (p q : Path) : n.get? (p ++ q) = (n.get? p).bind (·.get? q) := by
  induction p generalizing n with
  | nil => rfl
  | cons name rest ih =>
    cases n with
    | directory attributes entries =>
      simp only [List.cons_append, get?]
      cases Table.get? name entries with
      | none => rfl
      | some entry => exact ih entry
    | file attributes content => rfl
    | link attributes target => rfl

/-- Behind a change stands what the changed node has there. -/
theorem get?_modify_append (f : Node → Node) (n : Node) (p q : Path) :
    (n.modify f p).get? (p ++ q) = (n.get? p).bind fun old => (f old).get? q := by
  induction p generalizing n with
  | nil => rfl
  | cons name rest ih =>
    cases n with
    | directory attributes entries =>
      simp only [List.cons_append, get?, modify]
      cases h : Table.get? name entries with
      | none => simp [h]
      | some entry => simpa [get?, Table.get?_insert] using ih entry
    | file attributes content => rfl
    | link attributes target => rfl

/-- In front of a change stands the node with the change in it. -/
theorem get?_modify_above (f : Node → Node) (n : Node) (p q : Path) :
    (n.modify f (p ++ q)).get? p = (n.get? p).map (·.modify f q) := by
  induction p generalizing n with
  | nil => rfl
  | cons name rest ih =>
    cases n with
    | directory attributes entries =>
      simp only [List.cons_append, get?, modify]
      cases h : Table.get? name entries with
      | none => simp [h]
      | some entry => simpa [get?, Table.get?_insert] using ih entry
    | file attributes content => rfl
    | link attributes target => rfl

/-- A change is not seen on paths that part from its own. -/
theorem get?_modify_apart (f : Node → Node) (n : Node) {p q : Path} (hp : ¬p <+: q)
    (hq : ¬q <+: p) : (n.modify f p).get? q = n.get? q := by
  induction p generalizing n q with
  | nil => exact absurd List.nil_prefix hp
  | cons name rest ih =>
    cases q with
    | nil => exact absurd List.nil_prefix hq
    | cons other tail =>
      cases n with
      | directory attributes entries =>
        simp only [modify]
        cases h : Table.get? name entries with
        | none => rfl
        | some entry =>
          simp only [get?, Table.get?_insert]
          by_cases he : name = other
          · subst he
            simp only [List.cons_prefix_cons, true_and] at hp hq
            simpa [h] using ih entry hp hq
          · simp [he]
      | file attributes content => rfl
      | link attributes target => rfl

def contains (root : Node) (p : Path) : Bool := (root.get? p).isSome

def isDirectoryAt (root : Node) (p : Path) : Bool :=
  match root.get? p with
  | some n => n.isDirectory
  | none => false

/-- The parent of a path, if it is a directory. -/
def parentDirectory (root : Node) (p : Path) : Except TreeFault Path :=
  match p.parent? with
  | none => .error .root
  | some parent =>
    match root.get? parent with
    | none => .error .parentMissing
    | some n => if n.isDirectory then .ok parent else .error .notADirectory

/-- Puts a node into a directory, in place of an entry of the same name. -/
def insert (root : Node) (parent : Path) (entry : Node) : Except TreeFault Node :=
  match root.get? parent with
  | none => .error .parentMissing
  | some n =>
    if n.isDirectory then .ok (root.modify (withEntry entry) parent)
    else .error .notADirectory

/-- Takes the node at a path out of the tree: the node and what is left. -/
def remove (root : Node) (p : Path) : Except TreeFault (Node × Node) :=
  match p.parent?, p.name? with
  | some parent, some name =>
    match root.get? parent with
    | none => .error .missing
    | some (.directory _ entries) =>
      match Table.get? name entries with
      | some n => .ok (n, root.modify (withoutEntry name) parent)
      | none => .error .missing
    | some _ => .error .notADirectory
  | _, _ => .error .root

/-- Stores a file. A file that is there keeps its attributes but for the time; a link gives way to
a new file. The content is composed from the old one of a file. -/
def store (root : Node) (p : Path) (owner group : String) (now : DateTime)
    (compose : Option String → String) : Except TreeFault Node := do
  let parent ← root.parentDirectory p
  match root.get? p with
  | some (.file _ old) =>
    let renew : Node → Node
      | .file attributes _ => .file { attributes with modified := now } (compose (some old))
      | n => n
    .ok (root.modify renew p)
  | some (.directory ..) => .error .isADirectory
  | _ => root.insert parent (newFile (p.name?.getD "") owner group now (compose none))

def write (root : Node) (p : Path) (owner group : String) (now : DateTime) (content : String) :
    Except TreeFault Node :=
  root.store p owner group now fun _ => content

/-- The old content, if there is any, keeps a line of its own in front of the new one. -/
def append (root : Node) (p : Path) (owner group : String) (now : DateTime) (content : String) :
    Except TreeFault Node :=
  root.store p owner group now fun
    | some old => if old = "" then content else old ++ "\n" ++ content
    | none => content

/-- Follows at most `fuel` links from a path to a node that is no link. -/
def followLinks (root : Node) (user : String) : Nat → Path → Option Path
  | fuel, p =>
    match root.get? p with
    | none => none
    | some (.link _ target) =>
      match fuel with
      | 0 => none
      | fuel + 1 => followLinks root user fuel ((p.parent?.getD []).resolve user target)
    | some _ => some p

def linkLimit : Nat := 8

def resolveLinks (root : Node) (user : String) (p : Path) : Option Path :=
  root.followLinks user linkLimit p

/-- The content of the file to which a path leads. -/
def readText (root : Node) (user : String) (p : Path) : Except TreeFault String :=
  match (root.resolveLinks user p).bind root.get? with
  | some (.file _ content) => .ok content
  | some (.directory ..) => .error .isADirectory
  | _ => .error .missing

mutual

/-- All nodes below a node that stands at `start`, each before those below it. -/
def preorder (start : Path) : Node → List (Path × Node)
  | .directory _ entries => entriesPreorder start entries
  | _ => []

def entriesPreorder (start : Path) : List (String × Node) → List (Path × Node)
  | [] => []
  | (_, entry) :: rest =>
    let p := start.child entry.name
    (p, entry) :: (preorder p entry ++ entriesPreorder start rest)

end

/-- All nodes below a path. -/
def descendants (root : Node) (p : Path) : List (Path × Node) :=
  match root.get? p with
  | some n => n.preorder p
  | none => []

end Node

end PocketUnix
