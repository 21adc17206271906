import PocketUnix.Command.Call

/-!
# Changing nodes

`mkdir`, `touch`, `rm`, `ln`, `chmod`, `chown`, `chgrp` and `shred`. All operands are checked
against the tree before the first of them is acted on: a command is a plan, which only looks, and
the work that the plan asks for.
-/

namespace PocketUnix.Editing

/-- The paths on the way to `p`, from the first name on. -/
def prefixes (p : Path) : List Path := (List.range p.length).map fun k => p.take (k + 1)

/-- Adds to the planned directories what is missing on the way to a path. -/
def planWay (root : Node) (planned : List Path) (p : Path) : Except Fault (List Path) :=
  (prefixes p).foldlM (fun planned way =>
    match root.get? way with
    | some n => if n.isDirectory then .ok planned else .error (.notFound (.placed "mkdir"))
    | none => .ok (if way ∈ planned then planned else planned ++ [way])) planned

/-- Adds a new path whose parent is a directory or planned to be one. -/
def planNew (root : Node) (planned : List Path) (p : Path) : Except Fault (List Path) :=
  match p.parent? with
  | none => .error (.invalid .directoryExists)
  | some parent =>
    if root.contains p || p ∈ planned then .error (.invalid .directoryExists)
    else if root.isDirectoryAt parent || parent ∈ planned then .ok (planned ++ [p])
    else .error (.notFound (.placed "mkdir"))

/-- The directories to make, each behind those that it stands in. -/
def planMkdir (o : Shell.Options) (m : Machine) : Except Fault (List Path) :=
  if o.operands.isEmpty then .error (.usage (.missing "mkdir" "operand"))
  else
    let plan := if o.has 'p' then planWay m.root else planNew m.root
    o.operands.foldlM (fun planned operand => plan planned (m.resolve operand)) []

/-- Puts a new node, made for its name, at a path. The root is there already. -/
def create (command : String) (fresh : String → Node) (p : Path) : Action Node Unit :=
  match p.parent?, p.name? with
  | some parent, some name => Node.insertFor command p.display parent (fresh name)
  | _, _ => pure ()

def mkdir (c : Call) (m : Machine) : TreeAction := do
  let planned ← .ofExcept (planMkdir (c.options "m") m)
  planned.forM (create "mkdir" fun name => .newDirectory name m.user m.group c.now)
  return .empty

/-- The path of an operand if a file may stand there. -/
def touchable (m : Machine) (operand : String) : Except Fault Path :=
  let p := m.resolve operand
  match m.root.parentDirectory p with
  | .ok _ => .ok p
  | .error .root => .ok p
  | .error _ => .error (.notFound (.placed "touch"))

def planTouch (o : Shell.Options) (m : Machine) : Except Fault (List Path) :=
  if o.operands.isEmpty then .error (.usage (.missing "touch" "file operand"))
  else o.operands.mapM (touchable m)

def touchOne (c : Call) (m : Machine) (p : Path) : Action Node Unit := fun root =>
  if root.contains p then .ok () (root.modify (.touch c.now) p)
  else create "touch" (fun name => .newFile name m.user m.group c.now "") p root

def touch (c : Call) (m : Machine) : TreeAction := do
  let paths ← .ofExcept (planTouch (c.options "dt") m)
  paths.forM (touchOne c m)
  return .empty

/-- The path of an operand if it may be removed; none if it is missing and that is no fault. -/
def removable (m : Machine) (recursive force : Bool) (operand : String) :
    Except Fault (Option Path) :=
  let p := m.resolve operand
  match m.root.get? p with
  | none => if force then .ok none else .error (.notFound (.removed operand))
  | some n =>
    if p.isEmpty then .error (.invalid .removesRoot)
    else if n.isDirectory && !recursive then
      .error (.invalid (.removesDirectory n.name))
    else .ok (some p)

/-- The paths to remove. -/
def planRm (o : Shell.Options) (m : Machine) : Except Fault (List Path) :=
  let force := o.has 'f'
  if o.operands.isEmpty then
    if force then .ok [] else .error (.usage (.missing "rm" "operand"))
  else do
    let doomed ← o.operands.mapM (removable m (o.has 'r' || o.has 'R') force)
    .ok (doomed.filterMap id)

/-- Removes a path unless it has gone with one removed before. -/
def removeOne (p : Path) : Action Node Unit := fun root =>
  match root.remove p with
  | .ok (_, root) => .ok () root
  | .error .missing => .ok () root
  | .error fault => .error (.ofTree "rm" p.display fault) root

def rm (c : Call) (m : Machine) : TreeAction := do
  let doomed ← .ofExcept (planRm (c.options "") m)
  doomed.forM removeOne
  return .empty

/-- Inside a directory a link takes the last name of its target. -/
def linkPath (m : Machine) (target link : String) : Path :=
  let p := m.resolve link
  if m.root.isDirectoryAt p then
    let trimmed := Text.dropEnd '/' target
    let base := match Text.cutLast? (· == '/') trimmed with
      | some (_, name) => name
      | none => trimmed
    p.child base
  else p

/-- The node that a link puts at its place: a new link, or the target's node once more. -/
def linkNode (c : Call) (m : Machine) (kind : LinkKind) (target name : String) :
    Except Fault Node :=
  match kind with
  | .symbolic => .ok (.newLink name m.user m.group c.now target)
  | .hard =>
    match m.node? target with
    | none => .error (.notFound (.linkTarget target))
    | some n =>
      if n.isDirectory then .error (.invalid (.linksDirectory target)) else .ok (n.renamed name)

/-- The place of a new link and its node. -/
def planLn (c : Call) (m : Machine) (kind : LinkKind) (force : Bool) (target link : String) :
    Except Fault (Path × Node) :=
  let p := linkPath m target link
  match m.root.parentDirectory p, p.name? with
  | .ok parent, some name =>
    if m.root.contains p && !force then .error (.invalid (.linkExists kind link))
    else (linkNode c m kind target name).map fun n => (parent, n)
  | _, _ => .error (.notFound (.linkPlace kind link))

def ln (c : Call) (m : Machine) : TreeAction :=
  let o := c.options ""
  let kind : LinkKind := if o.has 's' then .symbolic else .hard
  match o.operands with
  | target :: link :: _ => do
    let (parent, n) ← .ofExcept (planLn c m kind (o.has 'f') target link)
    Node.insertFor "ln" link parent n
    return .empty
  | _ => .fail (.usage (.missing "ln" "file operand"))

/-- The words of the call but for some switches: what to set, and for which files. -/
def settingArgs (c : Call) (switches : List String) : Except Fault (String × List String) :=
  match c.args.filter (· ∉ switches) with
  | [] => .error (.usage (.missing c.name "operand"))
  | [setting] => .error (.usage (.missingAfter c.name "operand" setting))
  | setting :: files => .ok (setting, files)

def chmodOne (m : Machine) (mode operand : String) : Except Fault (Path × String) :=
  let p := m.resolve operand
  match m.root.get? p with
  | none => .error (.notFound (.accessed "chmod" operand))
  | some n =>
    match Permissions.Mode.read? mode with
    | none => .error (.usage (.invalidMode mode))
    | some change => .ok (p, change.apply n.attributes.permissions)

def planChmod (c : Call) (m : Machine) : Except Fault (List (Path × String)) := do
  let (mode, files) ← settingArgs c ["-R", "-v", "-f"]
  files.mapM (chmodOne m mode)

def setPermissions (now : DateTime) (root : Node) (update : Path × String) : Node :=
  root.modify (Node.updateAttributes fun a =>
    { a with permissions := update.2, modified := now }) update.1

def chmod (c : Call) (m : Machine) : TreeAction := do
  let updates ← .ofExcept (planChmod c m)
  updates.forM fun update => .change fun root => setPermissions c.now root update
  return .empty

/-- An owner and a group to set, where either may be left alone. -/
structure Ownership where
  owner : Option String
  group : Option String
  deriving DecidableEq, Repr

/-- `owner`, `owner:group`, `owner:` or `:group`. -/
def Ownership.read (spec : String) : Ownership :=
  match Text.cutWhere? (· == ':') spec with
  | none => ⟨some spec, none⟩
  | some (owner, group) =>
    ⟨if owner = "" then none else some owner, if group = "" then none else some group⟩

def Ownership.apply (o : Ownership) (a : Attributes) : Attributes :=
  { a with owner := o.owner.getD a.owner, group := o.group.getD a.group }

/-- Whom files are to belong to, and the paths of the files. -/
def planChown (groupOnly : Bool) (c : Call) (m : Machine) :
    Except Fault (Ownership × List Path) := do
  let (spec, files) ← settingArgs c ["-R", "-v", "-h"]
  let ownership : Ownership := if groupOnly then ⟨none, some spec⟩ else .read spec
  if !ownership.owner.all m.system.hasUser then .error (.invalid (.invalidUser c.name spec))
  else if !ownership.group.all m.system.hasGroup then
    .error (.invalid (.invalidGroup c.name spec))
  else
    let paths ← files.mapM fun operand =>
      let p := m.resolve operand
      if m.root.contains p then .ok p else .error (.notFound (.accessed c.name operand))
    .ok (ownership, paths)

/-- Changes owners of files, or only their groups. -/
def chown (groupOnly : Bool) (c : Call) (m : Machine) : TreeAction := do
  let (ownership, paths) ← .ofExcept (planChown groupOnly c m)
  paths.forM fun p => .change (·.modify (Node.updateAttributes ownership.apply) p)
  return .empty

def passLines (operand : String) : List String :=
  [1, 2, 3].map fun (pass : Nat) => s!"shred: {operand}: pass {pass}/3 (random)..."

/-- The report and the paths to remove, with one more operand. -/
def shredOne (m : Machine) (removing : Bool) (done : List String × List Path)
    (operand : String) : Except Fault (List String × List Path) :=
  let p := m.resolve operand
  let (report, doomed) := done
  match m.root.get? p with
  | some (.file ..) =>
    let report := report ++ passLines operand
    if removing && p ∉ doomed then
      .ok (report ++ [s!"shred: {operand}: removed"], doomed ++ [p])
    else .ok (report, doomed)
  | _ => .error (.notFound (.shredded operand))

/-- The report and the paths to remove. -/
def planShred (o : Shell.Options) (m : Machine) : Except Fault (List String × List Path) :=
  if o.operands.isEmpty then .error (.usage (.missing "shred" "file operand"))
  else o.operands.foldlM (shredOne m (o.has 'u')) ([], [])

def shred (c : Call) (m : Machine) : TreeAction := do
  let (report, doomed) ← .ofExcept (planShred (c.options "n") m)
  doomed.forM fun p => discard (Node.removeFor "shred" p.display p)
  return .lines report

end PocketUnix.Editing
