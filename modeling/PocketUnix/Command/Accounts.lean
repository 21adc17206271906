import PocketUnix.Command.Call
import PocketUnix.Command.Name

/-!
# Users and groups

Who works on the machine, and changing the tables of users and groups.
-/

namespace PocketUnix.Accounts

def su (c : Call) : SystemAction := do
  let name := ((c.options "").operand? 0).getD System.superuser
  .update fun s =>
    match s.switchUser? name with
    | none => .error (.notFound (.loginUser name))
    | some s => .ok ((), s)
  return .empty

def passwordDialogue : Reply := .lines [
  "Changing password for user.",
  "Current password: ",
  "New password: ",
  "Retype new password: ",
  "passwd: all authentication tokens updated successfully."]

def passwd (c : Call) (m : Machine) : Answer :=
  match (c.options "").operand? 0 with
  | none => .ok passwordDialogue
  | some name =>
    if name ≠ m.user ∧ !m.system.isSuperuser then .error (.invalid (.passwordOf name))
    else if m.system.hasUser name then .ok passwordDialogue
    else .error (.notFound (.user "passwd" name))

def id (c : Call) (m : Machine) : Answer :=
  let name := ((c.options "").operand? 0).getD m.user
  match m.system.user? name with
  | none => .error (.notFound (.knownUser "id" name))
  | some user =>
    let gid := (m.system.gid? user.group).getD user.uid
    let groups := (m.system.groupsOf? name).getD []
    let list := ",".intercalate (groups.map fun g => s!"{(m.system.gid? g).getD 0}({g})")
    .ok (.output s!"uid={user.uid}({name}) gid={gid}({user.group}) groups={list}")

def groups (c : Call) (m : Machine) : Answer :=
  let operand := (c.options "").operand? 0
  let name := operand.getD m.user
  match m.system.groupsOf? name with
  | none => .error (.notFound (.knownUser "groups" name))
  | some list =>
    let shown := " ".intercalate list
    .ok (.output (match operand with
      | some name => name ++ " : " ++ shown
      | none => shown))

def who (m : Machine) : Reply :=
  .output (Text.padRight 8 m.user ++ " pts/0        2024-01-01 10:00 (192.168.1.5)")

def groupadd (c : Call) : SystemAction :=
  match (c.options "g").operand? 0 with
  | none => .fail (.usage (.synopsis "Usage: groupadd [options] GROUP"))
  | some name => do
    .update fun s =>
      match s.addGroup? name with
      | none => .error (.invalid (.groupExists name))
      | some s => .ok ((), s)
    return .empty

/-- Adds a user to a group. -/
def join (name group : String) : Action System Unit :=
  .update fun s =>
    if !s.hasGroup group then .error (.notFound (.group "usermod" group))
    else
      match s.user? name with
      | none => .error (.notFound (.user "usermod" name))
      | some user => .ok ((), s.joinGroup name user group)

/-- Groups are joined one after the other, up to the first fault. -/
def usermod (c : Call) : SystemAction :=
  let o := c.options "Gg"
  match o.value? 'G', o.operand? 0 with
  | some list, some name => do
    ((Text.splitOn list ',').filter (· != "")).forM (join name)
    return .empty
  | _, _ => .fail (.usage (.synopsis "Usage: usermod [options] LOGIN"))

def addUser (name : String) : Action System Unit :=
  .update fun s =>
    match s.addUser? name with
    | none => .error (.invalid (.userExists name))
    | some s => .ok ((), s)

/-- Makes the home directory of a user, unless something stands there. -/
def makeHome (name : String) (now : DateTime) : Action Node Unit :=
  .update fun root =>
    let home := Path.home name
    if root.contains home then .ok ((), root)
    else
      match root.insert home.dropLast (.newDirectory name name name now) with
      | .ok root => .ok ((), root)
      | .error fault => .error (.invalid (.homeFault fault))

/-- A new user gets a home directory only on demand, and only where one can be. -/
def useradd (c : Call) (m : Machine) : Action Machine Reply :=
  let o := c.options "gGsd"
  match o.operand? 0 with
  | none => .fail (.usage (.synopsis "Usage: useradd [options] LOGIN"))
  | some name =>
    let home := Path.home name
    if o.has 'm' && !m.root.isDirectoryAt home.dropLast then
      .fail (.notFound (.homeParent home))
    else do
      (addUser name).onSystem
      if o.has 'm' then (makeHome name c.now).onTree else pure ()
      return .empty

def removeUser (name : String) : Action System Unit :=
  .update fun s =>
    if name = s.currentUser then .error (.invalid (.userInUse name))
    else if !s.hasUser name then .error (.notFound (.user "userdel" name))
    else .ok ((), s.removeUser name)

/-- Removes what stands at the home of a user. -/
def removeHome (name : String) : Action Node Unit := fun root =>
  let home := Path.home name
  if root.contains home then discard (Node.removeFor "userdel" home.display home) root
  else .ok () root

def userdel (c : Call) : Action Machine Reply :=
  let o := c.options ""
  match o.operand? 0 with
  | none => .fail (.usage (.synopsis "Usage: userdel [options] LOGIN"))
  | some name => do
    (removeUser name).onSystem
    if o.has 'r' then (removeHome name).onTree else pure ()
    return .empty

/-- All commands on users but `sudo`, which runs another command. -/
def run (command : UserCommand) (c : Call) (m : Machine) : Outcome :=
  match command with
  | .whoami => .reply m (.output m.user)
  | .su => .ofSystem m (su c)
  | .passwd => .ofQuery m (passwd c m)
  | .id => .ofQuery m (id c m)
  | .groups => .ofQuery m (groups c m)
  | .useradd => .ofAction m (useradd c m)
  | .userdel => .ofAction m (userdel c)
  | .groupadd => .ofSystem m (groupadd c)
  | .usermod => .ofSystem m (usermod c)
  | .who => .reply m (who m)
  | .w => .reply m (who m)
  | .visudo => .reply m (.output "visudo: /etc/sudoers.tmp: parsed OK")
  | .sudo => .fail m (.usage (.synopsis "usage: sudo command"))

end PocketUnix.Accounts
