import PocketUnix.Command.Call

/-!
# Copying and moving

All transfers are planned against the tree before the first of them is made, so that sources and
targets that get in each other's way are refused as a whole.
-/

namespace PocketUnix.Transfer

inductive Manner where
  | copy | move
  deriving DecidableEq, Repr

def Manner.command : Manner → String
  | .copy => "cp"
  | .move => "mv"

structure Step where
  operand : String
  source : Path
  /-- The directory of the target. -/
  parent : Path
  name : String
  deriving DecidableEq, Repr

def Step.target (s : Step) : Path := s.parent.child s.name

/-- Where a source goes: into a destination that is a directory, else to its place. -/
def place (m : Machine) (command : String) (destination : Path) (sourceName : String) :
    Except Fault (Path × String) :=
  if m.root.isDirectoryAt destination then .ok (destination, sourceName)
  else
    match m.root.parentDirectory destination with
    | .ok parent => .ok (parent, destination.name?.getD sourceName)
    | .error _ => .error (.notFound (.destination command))

/-- What a step does not allow of the steps behind it. -/
def conflict (command : String) (step earlier : Step) : Except Fault Unit :=
  if earlier.source = step.source then .error (.invalid (.repeated command step.operand))
  else if step.source.isWithin earlier.source || earlier.source.isWithin step.source then
    .error (.invalid (.overlaps command step.operand earlier.operand))
  else if earlier.parent = step.parent ∧ earlier.name = step.name then
    .error (.invalid (.overwritesCreated command step.target step.operand))
  else .ok ()

def planStep (m : Machine) (command target : String) (destination : Path) (plan : List Step)
    (operand : String) : Except Fault (List Step) := do
  let source := m.resolve operand
  match m.root.get? source, source.name? with
  | none, _ => .error (.notFound (.transferred command operand))
  | some _, none => .error (.invalid (.transfersRoot command))
  | some _, some sourceName =>
    let (parent, name) ← place m command destination sourceName
    let step : Step := ⟨operand, source, parent, name⟩
    if step.target = source then .error (.invalid (.sameFile command operand target))
    else if step.target.isWithin source then .error (.invalid (.intoItself command operand))
    else if m.root.isDirectoryAt step.target then
      .error (.invalid (.overwritesDirectory command step.target))
    else
      plan.forM (conflict command step)
      .ok (plan ++ [step])

def plan (m : Machine) (command : String) (sources : List String) (target : String) :
    Except Fault (List Step) :=
  let destination := m.resolve target
  if 1 < sources.length && !m.root.isDirectoryAt destination then
    .error (.invalid (.targetNotDirectory command target))
  else sources.foldlM (planStep m command target destination) []

/-- A copy belongs to the user who makes it and is of now. -/
def copied (c : Call) (m : Machine) (n : Node) : Node :=
  n.updateAttributes fun a => { a with owner := m.user, group := m.group, modified := c.now }

/-- Makes one transfer. A moved node stays as it is but for its name. -/
def make (c : Call) (m : Machine) (manner : Manner) (s : Step) : Action Node Unit :=
  match manner with
  | .copy => fun root =>
    match root.get? s.source with
    | none => .ok () root
    | some n =>
      Node.insertFor "cp" s.operand s.parent ((copied c m n).renamed s.name) root
  | .move => do
    let n ← Node.removeFor "mv" s.operand s.source
    Node.insertFor "mv" s.operand s.parent (n.renamed s.name)

/-- The transfers to make. Directories are copied on demand only. -/
def planRun (manner : Manner) (o : Shell.Options) (m : Machine) : Except Fault (List Step) :=
  let command := manner.command
  let recursive := o.has 'r' || o.has 'R' || o.has 'a'
  match o.operands.getLast?, o.operands.dropLast with
  | none, _ => .error (.usage (.missing command "file operand"))
  | some target, [] =>
    .error (.usage (.missingAfter command "destination file operand" target))
  | some target, sources => do
    let steps ← plan m command sources target
    match steps.find? fun s => m.root.isDirectoryAt s.source with
    | some s =>
      if manner = .copy && !recursive then .error (.invalid (.omitsDirectory s.operand))
      else .ok steps
    | none => .ok steps

def run (manner : Manner) (c : Call) (m : Machine) : TreeAction := do
  let steps ← .ofExcept (planRun manner (c.options "") m)
  steps.forM (make c m manner)
  return .empty

end PocketUnix.Transfer
