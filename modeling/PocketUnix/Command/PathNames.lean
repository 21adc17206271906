import PocketUnix.Command.Call
import PocketUnix.Command.Name

/-!
# Names and paths

`pwd`, `realpath`, `basename`, `dirname`, `which`, `whereis` and `lsattr`.
-/

namespace PocketUnix.PathNames

def pwd (m : Machine) : Answer := .ok (.output m.cwd.display)

def realpath (c : Call) (m : Machine) : Answer :=
  let operand := c.args.headD "."
  let p := m.resolve operand
  if m.root.contains p then .ok (.output p.display)
  else .error (.notFound (.used "realpath" operand))

/-- The last name of a written path. -/
def lastName (trimmed : String) : String :=
  match Text.cutLast? (· == '/') trimmed with
  | some (_, name) => name
  | none => trimmed

/-- The last name without slashes behind it, and without a suffix that is not all of it. -/
def baseName (operand : String) (suffix : Option String) : String :=
  let trimmed := Text.dropEnd '/' operand
  if trimmed = "" then (if operand = "" then "" else "/")
  else
    let name := lastName trimmed
    match suffix with
    | none => name
    | some s => if name = s then name else (Text.stripEnd? s name).getD name

/-- What stands before the last name. -/
def dirName (operand : String) : String :=
  match Text.cutLast? (· == '/') (Text.dropEnd '/' operand) with
  | none => if Text.startsWith operand "/" then "/" else "."
  | some (head, _) =>
    let head := Text.dropEnd '/' head
    if head = "" then "/" else head

def basename (c : Call) : Answer :=
  match c.args with
  | [] => .error (.usage (.missing "basename" "operand"))
  | operand :: rest => .ok (.output (baseName operand rest.head?))

def dirname (c : Call) : Answer :=
  match c.args with
  | [] => .error (.usage (.missing "dirname" "operand"))
  | operand :: _ => .ok (.output (dirName operand))

/-- The arguments without a dash in front. -/
def plainArgs (c : Call) : List String := c.args.filter fun arg => !Text.startsWith arg "-"

def which (c : Call) (m : Machine) : Answer :=
  .ok (.lines ((plainArgs c).filterMap fun name =>
    let p : Path := ["bin", name]
    if m.root.contains p then some p.display
    else if Command.isName name then some ("/usr/bin/" ++ name)
    else none))

def whereis (c : Call) : Answer :=
  .ok (.lines ((plainArgs c).map fun name =>
    if Command.isName name then s!"{name}: /usr/bin/{name} /usr/share/man/man1/{name}.1.gz"
    else name ++ ":"))

def lsattr (c : Call) : Answer :=
  .ok (.output ("--------------e----- " ++ c.args.headD "."))

end PocketUnix.PathNames
