import PocketUnix.Command.Call
import PocketUnix.Command.Name

/-!
# Archives and compressed files

Archives are placeholders; compressing a file changes its name. Renaming goes operand by operand,
so that a fault on the way leaves the operands before it renamed.
-/

namespace PocketUnix.Archive

def defaultName : String := "archive.zip"

def body : String := "[Binary archive data]"

def checkSources (c : Call) (m : Machine) (sources : List String) : Except Fault Unit :=
  sources.forM fun source =>
    if m.root.contains (m.resolve source) then .ok ()
    else .error (.notFound (.packed c.name source))

/-- Stores an archive of sources that are all there. -/
def pack (c : Call) (m : Machine) (name : String) (sources : List String) : Action Node Unit := do
  .ofExcept (checkSources c m sources)
  c.writeFile m name body false

/-- The first argument names the mode, with or without a dash. -/
def modeLetters (c : Call) : List Char :=
  (c.args.headD "").toList.dropWhile (· == '-')

def tar (c : Call) (m : Machine) : TreeAction :=
  let mode := modeLetters c
  let rest := c.args.tail
  let name := rest.headD defaultName
  let sources := rest.tail
  match mode.find? "ctxru".toList.contains with
  | none => .fail (.usage .noTarMode)
  | some action =>
    if action = 'c' ∨ action = 'r' ∨ action = 'u' then do
      pack c m name sources
      return if mode.contains 'v' then .lines sources else .empty
    else if m.root.contains (m.resolve name) then return .empty
    else .fail (.notFound (.extracted name))

def zip (c : Call) (m : Machine) : TreeAction := do
  let operands := (c.options "").operands
  let given := operands.headD defaultName
  let name := if Text.endsWith given ".zip" then given else given ++ ".zip"
  let sources := operands.tail
  pack c m name sources
  return .lines (sources.map fun source => s!"  adding: {source} (stored 0%)")

def jar (c : Call) (m : Machine) : TreeAction :=
  if !(modeLetters c).contains 'c' then return .empty
  else do
    let rest := c.args.tail
    pack c m (rest.headD defaultName) rest.tail
    return .empty

def unzip (c : Call) (m : Machine) : Answer :=
  let inflate (archive : String) : Reply :=
    .lines ["Archive:  " ++ archive, "  inflating: file1.txt", "  inflating: file2.txt"]
  match (c.options "d").operands with
  | [] => .ok (inflate "test.zip")
  | archive :: _ =>
    if m.root.contains (m.resolve archive) then .ok (inflate archive)
    else .error (.notFound (.unpacked archive))

inductive Direction where
  | compress | expand
  deriving DecidableEq, Repr

structure Renaming where
  operand : String
  path : Path
  parent : Path
  name : String
  deriving DecidableEq, Repr

/-- The name of a file once it is compressed or expanded. -/
def newName (c : Call) (suffix : String) (direction : Direction) (operand name : String) :
    Except Fault String :=
  match direction with
  | .expand =>
    match Text.stripEnd? suffix name with
    | none => .error (.invalid (.unknownSuffix c.name operand))
    | some stem =>
      if stem = "" then .error (.invalid (.unknownSuffix c.name operand)) else .ok stem
  | .compress =>
    if Text.endsWith name suffix then .error (.invalid (.hasSuffix c.name operand suffix))
    else .ok (name ++ suffix)

def planOne (c : Call) (m : Machine) (suffix : String) (direction : Direction)
    (operand : String) : Except Fault Renaming := do
  let path := m.resolve operand
  match m.root.get? path with
  | none => .error (.notFound (.used c.name operand))
  | some n =>
    if n.isDirectory then .error (.invalid (.compressesDirectory c.name operand))
    else
      match path.name? with
      | none => .error (.invalid (.isDirectory c.name operand))
      | some fileName =>
        let name ← newName c suffix direction operand fileName
        match m.root.parentDirectory path with
        | .ok parent => .ok ⟨operand, path, parent, name⟩
        | .error fault => .error (.ofTree c.name operand fault)

/-- A path that is named twice is renamed once. -/
def planAll (c : Call) (m : Machine) (suffix : String) (direction : Direction)
    (operands : List String) : Except Fault (List Renaming) :=
  operands.foldlM (fun plan operand => do
    let next ← planOne c m suffix direction operand
    .ok (if plan.any (·.path = next.path) then plan else plan ++ [next])) []

def rename (c : Call) (r : Renaming) : Action Node Unit := do
  let n ← Node.removeFor c.name r.operand r.path
  Node.insertFor c.name r.operand r.parent ((n.renamed r.name).touch c.now)

def recompress (suffix : String) (direction : Direction) (c : Call) (m : Machine) :
    TreeAction := do
  let plan ← .ofExcept (planAll c m suffix direction (c.options "").operands)
  plan.forM (rename c)
  return .empty

/-- Compresses, or expands if the options say so. -/
def compress (suffix : String) (c : Call) (m : Machine) : TreeAction :=
  recompress suffix (if (c.options "").has 'd' then .expand else .compress) c m

def syncReport : String := Text.joinLines [
  "sending incremental file list",
  "file1.txt",
  "          1,024 100%    0.00kB/s    0:00:00 (xfr#1, to-chk=0/1)",
  "",
  "sent 1,100 bytes  received 35 bytes  2,270.00 bytes/sec",
  "total size is 1,024  speedup is 0.90"]

def copyReport : String := Text.joinLines [
  "2048+0 records in",
  "2048+0 records out",
  "1048576 bytes (1.0 MB, 1.0 MiB) copied, 0.0053 s, 198 MB/s"]

def run (command : ArchiveCommand) (c : Call) (m : Machine) : Outcome :=
  match command with
  | .tar => .ofTree m (tar c m)
  | .zip => .ofTree m (zip c m)
  | .jar => .ofTree m (jar c m)
  | .unzip => .ofQuery m (unzip c m)
  | .gzip => .ofTree m (compress ".gz" c m)
  | .bzip2 => .ofTree m (compress ".bz2" c m)
  | .xz => .ofTree m (compress ".xz" c m)
  | .gunzip => .ofTree m (recompress ".gz" .expand c m)
  | .rsync => .reply m (.output syncReport)
  | .cpio => .reply m (.output "1 block")
  | .dd => .reply m (.output copyReport)

end PocketUnix.Archive
