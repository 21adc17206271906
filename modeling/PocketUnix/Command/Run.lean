import PocketUnix.Command.Accounts
import PocketUnix.Command.Archive
import PocketUnix.Command.Desk
import PocketUnix.Command.Disk
import PocketUnix.Command.Editing
import PocketUnix.Command.Host
import PocketUnix.Command.Network
import PocketUnix.Command.PathNames
import PocketUnix.Command.Processes
import PocketUnix.Command.Reading
import PocketUnix.Command.Transfer
import PocketUnix.Command.Walk
import PocketUnix.Shell.Words

/-!
# Running commands

From words to the outcome of the command that they name. `sudo` and `nice` run the command that
the rest of their words name.
-/

namespace PocketUnix

namespace Files

def cd (c : Call) (m : Machine) : Outcome :=
  let target := c.args.headD "~"
  let p := m.resolve target
  if m.root.isDirectoryAt p then .reply { m with cwd := p } .empty
  else .fail m (.notFound (.entered target))

def run (command : FileCommand) (c : Call) (m : Machine) : Outcome :=
  match command with
  | .basename => .ofQuery m (PathNames.basename c)
  | .cd => cd c m
  | .chattr => .reply m .empty
  | .chgrp => .ofTree m (Editing.chown true c m)
  | .chmod => .ofTree m (Editing.chmod c m)
  | .chown => .ofTree m (Editing.chown false c m)
  | .cp => .ofTree m (Transfer.run .copy c m)
  | .dirname => .ofQuery m (PathNames.dirname c)
  | .du => .ofQuery m (Walk.du c m)
  | .file => .ofQuery m (Listing.file c m)
  | .find => .ofQuery m (Walk.find c m)
  | .ln => .ofTree m (Editing.ln c m)
  | .locate => .ofQuery m (Walk.locate c m)
  | .ls => .ofQuery m (Listing.ls c m)
  | .lsattr => .ofQuery m (PathNames.lsattr c)
  | .mkdir => .ofTree m (Editing.mkdir c m)
  | .mv => .ofTree m (Transfer.run .move c m)
  | .pwd => .ofQuery m (PathNames.pwd m)
  | .realpath => .ofQuery m (PathNames.realpath c m)
  | .rm => .ofTree m (Editing.rm c m)
  | .shred => .ofTree m (Editing.shred c m)
  | .stat => .ofQuery m (Listing.stat c m)
  | .touch => .ofTree m (Editing.touch c m)
  | .tree => .ofQuery m (Walk.tree c m)
  | .whereis => .ofQuery m (PathNames.whereis c)
  | .which => .ofQuery m (PathNames.which c m)

end Files

/-- What surrounds a command: the piped text, the time and the lines before. -/
structure Context where
  stdin : String
  now : DateTime
  history : List String

def Context.call (x : Context) (name : String) (args : List String) : Call :=
  ⟨name, args, x.stdin, x.now, x.history⟩

namespace Command

def packageManagers : List String := ["apt", "yum", "dnf", "pacman"]

def interpreters : List String := ["python", "python3", "node", "perl", "ruby", "gcc"]

/-- Runs a command that does not run another one. -/
def runPlain (command : Command) (c : Call) (m : Machine) : Outcome :=
  match command with
  | .files k => Files.run k c m
  | .text k => Reading.run k c m
  | .process k => Processes.run k c m
  | .host k => Host.run k c m
  | .network k => Net.run k c m
  | .users k => Accounts.run k c m
  | .archive k => Archive.run k c m
  | .disk k => Disk.run k c m
  | .session k => Desk.run k c m

/-- The password prompt stands in front of what the inner command printed. -/
def behindPrompt (caller : String) (r : Reply) : Reply :=
  let prompt := "[sudo] password for " ++ caller ++ ": "
  { r with text := if r.text = "" then prompt else prompt ++ "\n" ++ r.text }

/-- Hands the machine back to the caller, if there still is such a user. -/
def handBack (caller : String) (inner : Outcome) : Outcome :=
  let m := inner.machine
  ⟨inner.answer.map (behindPrompt caller),
    { m with system := (m.system.switchUser? caller).getD m.system }⟩

/-- Runs the words of a command line. -/
def run (x : Context) : List String → Machine → Outcome
  | [], m => .reply m .empty
  | name :: args, m =>
    if name ∈ packageManagers then .fail m (.restricted .packageLock)
    else if name ∈ interpreters then
      .reply m (.info s!"[Language Runtime {name} v1.0.0 started]\n>>> ")
    else
      match ofName? name with
      | none => .fail m (.unsupported name)
      | some (.users .sudo) =>
        match args with
        | [] => .fail m (.usage (.synopsis "usage: sudo command"))
        | inner :: rest =>
          if Text.startsWith inner "-" then .fail m (.usage (.synopsis "usage: sudo command"))
          else
            match m.system.switchUser? System.superuser with
            | none => .fail m (.notFound (.loginUser System.superuser))
            | some system => handBack m.user (run x (inner :: rest) { m with system })
      | some (.process .nice) =>
        match args with
        | [] => .reply m (.output "0")
        | first :: rest =>
          if first = "-n" then
            match rest with
            | [] => .reply m (.output "0")
            | _ :: words => if words.isEmpty then .reply m (.output "0") else run x words m
          else if Text.startsWith first "-" then
            if rest.isEmpty then .reply m (.output "0") else run x rest m
          else run x (first :: rest) m
      | some command => runPlain command (x.call name args) m

end Command

end PocketUnix
