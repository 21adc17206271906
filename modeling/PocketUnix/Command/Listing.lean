import PocketUnix.Command.Call

/-!
# Showing nodes

`ls`, `file` and `stat`.
-/

namespace PocketUnix.Listing

def isHidden (name : String) : Bool := Text.startsWith name "."

def arrow (n : Node) : String :=
  match n.target? with
  | some target => " -> " ++ target
  | none => ""

/-- A row of the long listing. -/
def longRow (n : Node) : String :=
  let a := n.attributes
  s!"{a.permissions} 1 {a.owner} {a.group} " ++ Text.padLeft 6 s!"{n.size}" ++
    s!" {a.modified.label} {n.name}" ++ arrow n

def ls (c : Call) (m : Machine) : Answer :=
  let o := c.options ""
  let target := (o.operand? 0).getD "."
  let p := m.resolve target
  match m.root.get? p with
  | none => .error (.notFound (.listed target))
  | some (.directory _ entries) =>
    let shown := (entries.map (·.2)).filter fun n => o.has 'a' || !isHidden n.name
    if o.has 'l' then .ok (.lines (s!"total {shown.length}" :: shown.map longRow))
    else .ok (.output ("  ".intercalate (shown.map (·.name))))
  | some n => .ok (.output n.name)

/-- The kind of device that a file stands for, by the letter of its permissions. -/
def deviceKind? (a : Attributes) : Option String :=
  match Permissions.kindLetter a.permissions with
  | 'c' => some "character special"
  | 'b' => some "block special"
  | _ => none

/-- What a file seems to hold, by its first characters. -/
def contentKind (content : String) : String :=
  if content = "" then "empty"
  else if Text.startsWith content "#!" then "Bourne-Again shell script, ASCII text executable"
  else if Text.startsWith content "[binary]" then
    "ELF 64-bit LSB pie executable, x86-64, dynamically linked"
  else if Text.startsWith content "[Binary archive data]" then "data"
  else if content.toList.all (·.toNat < 0x80) then "ASCII text"
  else "UTF-8 Unicode text"

def nodeKind : Node → String
  | .directory .. => "directory"
  | .link _ target => "symbolic link to " ++ target
  | .file a content => (deviceKind? a).getD (contentKind content)

def file (c : Call) (m : Machine) : Answer :=
  let operands := (c.options "").operands
  if operands.isEmpty then
    .error (.usage (.synopsis "Usage: file [-bchikLNnprsvz0] file ..."))
  else
    .ok (.lines (operands.map fun operand =>
      match m.node? operand with
      | none => s!"{operand}: cannot open \x60{operand}' (No such file or directory)"
      | some n => operand ++ ": " ++ nodeKind n))

def statKind : Node → String
  | .directory .. => "directory"
  | .link .. => "symbolic link"
  | .file a content =>
    match deviceKind? a with
    | some kind => kind ++ " file"
    | none => if content = "" then "regular empty file" else "regular file"

/-- The number of blocks of 512 bytes, taken eight at a time. -/
def blocks (size : Nat) : Nat := (size + 4095) / 4096 * 8

def statText (s : System) (operand : String) (n : Node) : String :=
  let a := n.attributes
  let uid := match s.user? a.owner with
    | some user => user.uid
    | none => 0
  let gid := (s.gid? a.group).getD 0
  Text.joinLines [
    "  File: " ++ operand ++ arrow n,
    "  Size: " ++ Text.padRight 15 s!"{n.size}" ++ " Blocks: " ++
      Text.padRight 10 s!"{blocks n.size}" ++ " IO Block: 4096   " ++ statKind n,
    s!"Access: ({Permissions.octal a.permissions}/{a.permissions})  Uid: (" ++
      Text.padLeft 5 s!"{uid}" ++ "/" ++ Text.padLeft 8 a.owner ++ ")   Gid: (" ++
      Text.padLeft 5 s!"{gid}" ++ "/" ++ Text.padLeft 8 a.group ++ ")",
    "Modify: " ++ a.modified.stamp " "]

def stat (c : Call) (m : Machine) : Answer := do
  let operands := (c.options "c").operands
  if operands.isEmpty then .error (.usage (.missing "stat" "operand"))
  else
    let texts ← operands.mapM fun operand =>
      match m.node? operand with
      | none => .error (.notFound (.described operand))
      | some n => .ok (statText m.system operand n)
    .ok (.lines texts)

end PocketUnix.Listing
