import Mathlib.Logic.Relation
import PocketUnix.Command.Run
import PocketUnix.Proofs.Action

/-!
# Steps of the system tables

All changes of the system tables are made of a few steps. Which users may come and go on the way is
said by two sets of names.
-/

namespace PocketUnix

open PocketUnix.Action (Within within_pure within_fail within_ofExcept within_update)

namespace System

/-- A change of the tables. Users who come have names in `new`, and those who go in `old`. -/
inductive Step (new old : String → Prop) : System → System → Prop
  | switch {s t : System} {name : String} (h : s.switchUser? name = some t) : Step new old s t
  | addUser {s t : System} {name : String} (hnew : new name) (h : s.addUser? name = some t) :
    Step new old s t
  | removeUser {s : System} {name : String} (hold : old name) (hc : name ≠ s.currentUser) :
    Step new old s (s.removeUser name)
  | addGroup {s t : System} {name : String} (h : s.addGroup? name = some t) : Step new old s t
  | join {s : System} {name group : String} {user : User} (hu : s.user? name = some user)
    (hg : s.hasGroup group = true) : Step new old s (s.joinGroup name user group)
  | rename {s : System} (hostname : String) : Step new old s { s with hostname }
  | kill {s t : System} {pid : Nat} (h : s.kill? pid = some t) : Step new old s t
  | killWhere {s : System} (p : String → Bool) : Step new old s (s.killWhere p).2

/-- Any number of steps. -/
def Steps (new old : String → Prop) : System → System → Prop :=
  Relation.ReflTransGen (Step new old)

variable {new old : String → Prop} {s t : System}

instance : IsPreorder System (Steps new old) where
  refl _ := .refl
  trans _ _ _ h h' := Relation.ReflTransGen.trans h h'

theorem Step.steps (h : Step new old s t) : Steps new old s t := .single h

/-- What every step keeps, any number of steps does. -/
theorem Steps.keeps {I : System → Prop} (h : Steps new old s t)
    (step : ∀ s t, Step new old s t → I s → I t) (hs : I s) : I t := by
  induction h with
  | refl => exact hs
  | tail _ hstep ih => exact step _ _ hstep ih

end System

open PocketUnix.System (Step Steps)

variable {new old : String → Prop}

namespace Accounts

/-- Another user works on the machine, one who is known. -/
theorem steps_su (c : Call) : Within (Steps new old) (su c) := by
  refine (within_update fun s a t h => ?_).bind fun _ => within_pure Reply.empty
  split at h
  · cases h
  · next hs =>
    cases h
    exact (Step.switch hs).steps

/-- A group comes, unless it is there. -/
theorem steps_groupadd (c : Call) : Within (Steps new old) (groupadd c) := by
  unfold groupadd
  split
  · exact within_fail _
  · refine (within_update fun s a t h => ?_).bind fun _ => within_pure Reply.empty
    split at h
    · cases h
    · next hs =>
      cases h
      exact (Step.addGroup hs).steps

/-- A user joins a group, unless either of them is missing. -/
theorem steps_join (name group : String) : Within (Steps new old) (join name group) := by
  refine within_update fun s a t h => ?_
  split at h
  · cases h
  · next hg =>
    split at h
    · cases h
    · next hu =>
      cases h
      exact (Step.join hu (by simpa using hg)).steps

theorem steps_usermod (c : Call) : Within (Steps new old) (usermod c) := by
  unfold usermod
  dsimp only
  split
  · exact (Within.forM (steps_join _) _).bind fun _ => within_pure Reply.empty
  · exact within_fail _

/-- A user comes who was not there. -/
theorem steps_addUser {name : String} (hnew : new name) : Within (Steps new old) (addUser name) := by
  refine within_update fun s a t h => ?_
  split at h
  · cases h
  · next hs =>
    cases h
    exact (Step.addUser hnew hs).steps

/-- A user goes, unless he works on the machine. -/
theorem steps_removeUser {name : String} (hold : old name) :
    Within (Steps new old) (removeUser name) := by
  refine within_update fun s a t h => ?_
  split at h
  · cases h
  · next hc =>
    split at h <;> cases h
    exact (Step.removeUser hold hc).steps

end Accounts

/-- A new name for the machine is a step, and to ask for the name is none. -/
theorem Host.steps_hostname (c : Call) : Within (Steps new old) (hostname c) := by
  refine Action.within_of_result (fun s a t h => ?_) fun s fault t h => ?_
  · unfold hostname at h
    dsimp only at h
    split at h
    · cases h
      exact refl_of (Steps new old) s
    · split at h
      · cases h
        exact refl_of (Steps new old) s
      · split at h <;> cases h
        exact (Step.rename _).steps
  · unfold hostname at h
    dsimp only at h
    split at h
    · cases h
    · split at h
      · cases h
      · split at h <;> cases h
        exact refl_of (Steps new old) s

namespace Processes

/-- The process with the number goes, if there is one. -/
theorem steps_kill (c : Call) : Within (Steps new old) (kill c) := by
  unfold kill
  split
  · exact within_pure _
  · refine (within_ofExcept _).bind fun pid => ?_
    refine (within_update fun s a t h => ?_).bind fun _ => within_pure _
    split at h
    · cases h
    · next hs =>
      cases h
      exact (Step.kill hs).steps

theorem steps_endWhere (p : String → Bool) : Within (Steps new old) (endWhere p) := by
  refine within_update fun s a t h => ?_
  cases h
  exact (Step.killWhere p).steps

/-- All processes of a name go, even if there are none. -/
theorem steps_killall (c : Call) : Within (Steps new old) (killall c) := by
  refine (within_ofExcept _).bind fun name => ?_
  refine (steps_endWhere _).bind fun gone => ?_
  split
  · exact within_fail _
  · exact within_pure _

theorem steps_pkill (c : Call) : Within (Steps new old) (pkill c) := by
  refine (within_ofExcept _).bind fun part => ?_
  exact (steps_endWhere _).bind fun _ => within_pure _

end Processes

namespace Action

variable {α : Type}

/-- Work on the tree leaves all else of a machine as it is, whether it fails or not. -/
theorem after_onTree (action : Action Node α) (m : Machine) :
    action.onTree.after m = { m with root := action.after m.root } := by
  simp only [after, onTree]
  cases action m.root <;> rfl

theorem after_onSystem (action : Action System α) (m : Machine) :
    action.onSystem.after m = { m with system := action.after m.system } := by
  simp only [after, onSystem]
  cases action m.system <;> rfl

end Action

namespace Outcome

/-- The machine of an outcome is what its action has left, also where it fails. -/
theorem machine_ofAction (m : Machine) (action : Action Machine Reply) :
    (ofAction m action).machine = action.after m := by
  unfold ofAction Action.after
  cases action m <;> rfl

theorem machine_ofTree (m : Machine) (action : TreeAction) :
    (ofTree m action).machine = { m with root := action.after m.root } := by
  rw [ofTree, machine_ofAction, Action.after_onTree]

theorem machine_ofSystem (m : Machine) (action : SystemAction) :
    (ofSystem m action).machine = { m with system := action.after m.system } := by
  rw [ofSystem, machine_ofAction, Action.after_onSystem]

end Outcome

/-- The system tables of a machine take steps. -/
def Machine.Steps (new old : String → Prop) (m m' : Machine) : Prop :=
  m.system.Steps new old m'.system

instance : IsPreorder Machine (Machine.Steps new old) where
  refl m := refl_of (Steps new old) m.system
  trans _ _ _ h h' := trans_of (Steps new old) h h'

namespace Action

variable {α : Type}

theorem steps_onTree (action : Action Node α) : Within (Machine.Steps new old) action.onTree := by
  intro m
  rw [after_onTree]
  exact refl_of (Machine.Steps new old) m

theorem Within.stepsOnSystem {action : Action System α} (h : Within (System.Steps new old) action) :
    Within (Machine.Steps new old) action.onSystem := by
  intro m
  rw [after_onSystem]
  exact h m.system

end Action

namespace Accounts

section Homes

variable {R : Machine → Machine → Prop} [IsPreorder Machine R] {c : Call}

/-- A user is added to the tables, and then perhaps a home to the tree. -/
theorem within_useradd (m : Machine)
    (hadd : ∀ name, (c.options "gGsd").operand? 0 = some name → Within R (addUser name).onSystem)
    (hhome : ∀ name, (c.options "gGsd").operand? 0 = some name →
      Within R (makeHome name c.now).onTree) : Within R (useradd c m) := by
  unfold useradd
  dsimp only
  split
  · exact within_fail _
  · next name h =>
    split
    · exact within_fail _
    · refine (hadd name h).bind fun _ => ?_
      split
      · exact (hhome name h).bind fun _ => within_pure _
      · exact within_pure _

/-- A user is taken out of the tables, and then perhaps a home out of the tree. -/
theorem within_userdel_of
    (hremove : ∀ name, (c.options "").operand? 0 = some name →
      Within R (removeUser name).onSystem)
    (hhome : ∀ name, (c.options "").operand? 0 = some name → (c.options "").has 'r' = true →
      Within R (removeHome name).onTree) : Within R (userdel c) := by
  unfold userdel
  dsimp only
  split
  · exact within_fail _
  · next name h =>
    refine (hremove name h).bind fun _ => ?_
    split
    · next hr => exact (hhome name h hr).bind fun _ => within_pure _
    · exact within_pure _

end Homes

theorem steps_useradd {c : Call} (m : Machine)
    (hnew : ∀ name, (c.options "gGsd").operand? 0 = some name → new name) :
    Within (Machine.Steps new old) (useradd c m) :=
  within_useradd m (fun name h => (steps_addUser (hnew name h)).stepsOnSystem) fun _ _ =>
    Action.steps_onTree _

theorem steps_userdel {c : Call}
    (hold : ∀ name, (c.options "").operand? 0 = some name → old name) :
    Within (Machine.Steps new old) (userdel c) :=
  within_userdel_of (fun name h => (steps_removeUser (hold name h)).stepsOnSystem) fun _ _ _ =>
    Action.steps_onTree _

end Accounts

/-- What a command does to the system tables is made of steps. -/
def Outcome.Steps (new old : String → Prop) (o : Outcome) (m : Machine) : Prop :=
  m.Steps new old o.machine

namespace Outcome

/-- No step is taken where the tables stay as they are. -/
theorem steps_of_system_eq {o : Outcome} {m : Machine} (h : o.machine.system = m.system) :
    o.Steps new old m := by
  rw [Steps, Machine.Steps, h]
  exact refl_of (System.Steps new old) m.system

theorem steps_ofAction {action : Action Machine Reply} (h : Within (Machine.Steps new old) action)
    (m : Machine) : (ofAction m action).Steps new old m := by
  rw [Steps, machine_ofAction]
  exact h m

theorem steps_ofTree (m : Machine) (action : TreeAction) : (ofTree m action).Steps new old m :=
  steps_ofAction (Action.steps_onTree action) m

theorem steps_ofSystem {action : SystemAction} (h : Within (System.Steps new old) action)
    (m : Machine) : (ofSystem m action).Steps new old m :=
  steps_ofAction h.stepsOnSystem m

end Outcome

section Families

variable (c : Call) (m : Machine)

/-- No command on files touches the tables. -/
theorem Files.steps_run (command : FileCommand) : (run command c m).Steps new old m := by
  cases command
  case cd =>
    refine Outcome.steps_of_system_eq ?_
    simp only [run, cd]
    split <;> rfl
  all_goals first
    | exact Outcome.steps_of_system_eq rfl
    | exact Outcome.steps_ofTree m _

theorem Reading.steps_run (command : TextCommand) : (run command c m).Steps new old m := by
  cases command
  all_goals first
    | exact Outcome.steps_of_system_eq rfl
    | exact Outcome.steps_ofTree m _

theorem Processes.steps_run (command : ProcessCommand) : (run command c m).Steps new old m := by
  cases command
  case kill => exact Outcome.steps_ofSystem (steps_kill c) m
  case killall => exact Outcome.steps_ofSystem (steps_killall c) m
  case pkill => exact Outcome.steps_ofSystem (steps_pkill c) m
  all_goals exact Outcome.steps_of_system_eq rfl

theorem Host.steps_run (command : HostCommand) : (run command c m).Steps new old m := by
  cases command
  case hostname => exact Outcome.steps_ofSystem (steps_hostname c) m
  all_goals exact Outcome.steps_of_system_eq rfl

/-- No command on the network does. -/
theorem Net.steps_run (command : NetworkCommand) : (run command c m).Steps new old m := by
  cases command
  case ping =>
    refine Outcome.steps_of_system_eq ?_
    simp only [run]
    split <;> rfl
  all_goals first
    | exact Outcome.steps_of_system_eq rfl
    | exact Outcome.steps_ofTree m _

variable {c} in
/-- The commands on users take steps. Who comes and who goes is named by the first operand. -/
theorem Accounts.steps_run {command : UserCommand}
    (hnew : command = .useradd → ∀ name, (c.options "gGsd").operand? 0 = some name → new name)
    (hold : command = .userdel → ∀ name, (c.options "").operand? 0 = some name → old name) :
    (run command c m).Steps new old m := by
  cases command
  case su => exact Outcome.steps_ofSystem (steps_su c) m
  case useradd => exact Outcome.steps_ofAction (steps_useradd m (hnew rfl)) m
  case userdel => exact Outcome.steps_ofAction (steps_userdel (hold rfl)) m
  case groupadd => exact Outcome.steps_ofSystem (steps_groupadd c) m
  case usermod => exact Outcome.steps_ofSystem (steps_usermod c) m
  all_goals exact Outcome.steps_of_system_eq rfl

theorem Archive.steps_run (command : ArchiveCommand) : (run command c m).Steps new old m := by
  cases command
  all_goals first
    | exact Outcome.steps_of_system_eq rfl
    | exact Outcome.steps_ofTree m _

theorem Disk.steps_run (command : DiskCommand) : (run command c m).Steps new old m := by
  cases command
  all_goals exact Outcome.steps_of_system_eq rfl

theorem Desk.steps_run (command : SessionCommand) : (run command c m).Steps new old m := by
  cases command
  all_goals exact Outcome.steps_of_system_eq rfl

variable {c} in
/-- Users come by one command only, and go by one other. -/
theorem Command.steps_runPlain {command : Command}
    (hnew : command = .users .useradd → ∀ name, (c.options "gGsd").operand? 0 = some name →
      new name)
    (hold : command = .users .userdel → ∀ name, (c.options "").operand? 0 = some name →
      old name) : (runPlain command c m).Steps new old m := by
  cases command with
  | files k => exact Files.steps_run c m k
  | text k => exact Reading.steps_run c m k
  | process k => exact Processes.steps_run c m k
  | host k => exact Host.steps_run c m k
  | network k => exact Net.steps_run c m k
  | users k => exact Accounts.steps_run m (fun h => hnew (h ▸ rfl)) fun h => hold (h ▸ rfl)
  | archive k => exact Archive.steps_run c m k
  | disk k => exact Disk.steps_run c m k
  | session k => exact Desk.steps_run c m k

end Families

end PocketUnix
