import PocketUnix.Table

/-!
# Users, groups and processes

The tables of the simulated machine besides its file tree.
-/

namespace PocketUnix

structure User where
  uid : Nat
  /-- The primary group. -/
  group : String
  extraGroups : List String
  deriving DecidableEq, Repr

inductive ProcessState where
  | running | sleeping | zombie
  deriving DecidableEq, Repr

def ProcessState.letter : ProcessState → Char
  | .running => 'R'
  | .sleeping => 'S'
  | .zombie => 'Z'

structure Process where
  pid : Nat
  user : String
  command : String
  /-- Tenths of a per cent. -/
  cpu : Nat
  /-- Tenths of a per cent. -/
  memory : Nat
  state : ProcessState
  time : String
  deriving DecidableEq, Repr

structure Network where
  address : String
  interface : String
  hardware : String
  deriving DecidableEq, Repr

structure System where
  users : Table User
  groups : Table Nat
  hostname : String
  currentUser : String
  processes : List Process
  network : Network
  deriving DecidableEq, Repr

namespace System

def superuser : String := "root"

def user? (s : System) (name : String) : Option User := Table.get? name s.users

def hasUser (s : System) (name : String) : Bool := Table.contains s.users name

def gid? (s : System) (group : String) : Option Nat := Table.get? group s.groups

def hasGroup (s : System) (group : String) : Bool := Table.contains s.groups group

/-- The primary group of the current user. -/
def currentGroup (s : System) : String :=
  match s.user? s.currentUser with
  | some user => user.group
  | none => s.currentUser

def isSuperuser (s : System) : Bool := s.currentUser == superuser

/-- The groups of a user, the primary one first, each once. -/
def groupsOf? (s : System) (name : String) : Option (List String) :=
  (s.user? name).map fun user =>
    user.extraGroups.foldl (fun groups g => if g ∈ groups then groups else groups ++ [g])
      [user.group]

/-- Ids below this one belong to the system. -/
def firstRegularId : Nat := 1000

/-- One more than the largest regular id that is taken. -/
def nextId (taken : List Nat) : Nat :=
  match (taken.filter (firstRegularId ≤ ·)).max? with
  | some id => id + 1
  | none => firstRegularId

def switchUser? (s : System) (name : String) : Option System :=
  if s.hasUser name then some { s with currentUser := name } else none

/-- A new user with a group of the same name; none if the name is taken. -/
def addUser? (s : System) (name : String) : Option System :=
  if s.hasUser name then none
  else
    let uid := nextId (s.users.map (·.2.uid))
    let groups :=
      if s.hasGroup name then s.groups
      else Table.insert name (max (nextId (s.groups.map (·.2))) uid) s.groups
    some { s with groups, users := Table.insert name ⟨uid, name, []⟩ s.users }

def removeUser (s : System) (name : String) : System :=
  { s with users := Table.erase name s.users }

def addGroup? (s : System) (name : String) : Option System :=
  if s.hasGroup name then none
  else some { s with groups := Table.insert name (nextId (s.groups.map (·.2))) s.groups }

/-- Makes a group one of the extra groups of a user, unless the user is in it already. -/
def joinGroup (s : System) (name : String) (user : User) (group : String) : System :=
  if user.group = group ∨ group ∈ user.extraGroups then s
  else
    let user := { user with extraGroups := user.extraGroups ++ [group] }
    { s with users := Table.insert name user s.users }

/-- Removes the first process with a pid. -/
def kill? (s : System) (pid : Nat) : Option System :=
  if s.processes.any (·.pid == pid) then
    some { s with processes := s.processes.eraseP (·.pid == pid) }
  else none

/-- Takes out the processes whose command satisfies `p`: those processes and what is left. -/
def killWhere (s : System) (p : String → Bool) : List Process × System :=
  let (gone, kept) := s.processes.partition fun process => p process.command
  (gone, { s with processes := kept })

end System

end PocketUnix
