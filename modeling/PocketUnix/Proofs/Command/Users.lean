import PocketUnix.Proofs.Command.SystemSteps

/-!
# Who is known to the machine

No command makes a user go but `userdel`, and who works on the machine stays one of its users
through all commands, those that run another command included.
-/

namespace PocketUnix

namespace Table

variable {α : Type}

theorem contains_insert (t : Table α) (name other : String) (value : α) :
    contains (insert name value t) other = (name == other || contains t other) := by
  rw [contains, get?_insert]
  by_cases h : name = other <;> simp [h, contains]

/-- Where one name is taken out all others stay. -/
theorem contains_erase (t : Table α) (name other : String) :
    contains (erase name t) other = (name != other && contains t other) := by
  rw [contains, get?_erase]
  by_cases h : name = other <;> simp [h, contains]

end Table

namespace System

/-- The user who works on the machine is one of its users. -/
def Known (s : System) : Prop := s.hasUser s.currentUser = true

/-- No user is lost, except one who may be, and who works on the machine stays known. -/
structure Keeps (lost : Option String) (s t : System) : Prop where
  hasUser : ∀ name, lost ≠ some name → s.hasUser name = true → t.hasUser name = true
  known : s.Known → t.Known

instance (lost : Option String) : IsPreorder System (Keeps lost) where
  refl _ := ⟨fun _ _ h => h, id⟩
  trans _ _ _ h h' :=
    ⟨fun name hl hn => h'.hasUser name hl (h.hasUser name hl hn), h'.known ∘ h.known⟩

variable {lost : Option String} {s t : System} {name : String}

/-- Who is known does not depend on groups and processes. -/
theorem keeps_of_users (hu : t.users = s.users) (hc : t.currentUser = s.currentUser) :
    Keeps lost s t := by
  have h : ∀ name, t.hasUser name = s.hasUser name := fun name => by rw [hasUser, hu, hasUser]
  exact ⟨fun name _ hn => by rw [h, hn], fun hk => by rw [Known, hc, h]; exact hk⟩

theorem keeps_of_insert {user : User} (hu : t.users = Table.insert name user s.users)
    (hc : t.currentUser = s.currentUser) : Keeps lost s t := by
  have h : ∀ other, s.hasUser other = true → t.hasUser other = true := fun other ho => by
    rw [hasUser, hu, Table.contains_insert, Bool.or_eq_true]
    exact .inr ho
  exact ⟨fun other _ => h other, fun hk => by rw [Known, hc]; exact h _ hk⟩

theorem switchUser?_eq_some_iff :
    s.switchUser? name = some t ↔ s.hasUser name = true ∧ t = { s with currentUser := name } := by
  unfold switchUser?
  cases s.hasUser name <;> simp [eq_comm]

/-- One only becomes a user who is known. -/
theorem known_switchUser (h : s.switchUser? name = some t) : t.Known := by
  obtain ⟨hn, rfl⟩ := switchUser?_eq_some_iff.mp h
  exact hn

theorem keeps_switchUser (h : s.switchUser? name = some t) : Keeps lost s t := by
  refine ⟨fun _ _ hn => ?_, fun _ => known_switchUser h⟩
  obtain ⟨-, rfl⟩ := switchUser?_eq_some_iff.mp h
  exact hn

theorem keeps_addUser (h : s.addUser? name = some t) : Keeps lost s t := by
  unfold addUser? at h
  split at h <;> cases h
  exact keeps_of_insert rfl rfl

theorem keeps_addGroup (h : s.addGroup? name = some t) : Keeps lost s t := by
  unfold addGroup? at h
  split at h <;> cases h
  exact keeps_of_users rfl rfl

/-- Users who join a group stay users. -/
theorem keeps_joinGroup (user : User) (group : String) :
    Keeps lost s (s.joinGroup name user group) := by
  unfold joinGroup
  split
  · exact refl_of (Keeps lost) s
  · exact keeps_of_insert rfl rfl

theorem hasUser_removeUser (other : String) :
    (s.removeUser name).hasUser other = (name != other && s.hasUser other) :=
  Table.contains_erase s.users name other

/-- A user who does not work on the machine may be removed. -/
theorem keeps_removeUser (hc : name ≠ s.currentUser) : Keeps (some name) s (s.removeUser name) where
  hasUser other hl ho := by
    rw [hasUser_removeUser, ho, Bool.and_true, bne_iff_ne]
    exact fun he => hl (by rw [he])
  known hk := by
    rw [Known, hasUser_removeUser, Bool.and_eq_true, bne_iff_ne]
    exact ⟨hc, hk⟩

/-- A user who is there was there before, or has come by a step. -/
theorem hasUser_of_step {new old : String → Prop} (h : Step new old s t)
    (hn : t.hasUser name = true) : s.hasUser name = true ∨ new name := by
  cases h with
  | switch h =>
    obtain ⟨-, rfl⟩ := switchUser?_eq_some_iff.mp h
    exact .inl hn
  | addUser hnew h =>
    unfold addUser? at h
    split at h <;> cases h
    rw [hasUser, Table.contains_insert, Bool.or_eq_true, beq_iff_eq] at hn
    rcases hn with rfl | hn
    · exact .inr hnew
    · exact .inl hn
  | removeUser _ _ =>
    rw [hasUser_removeUser, Bool.and_eq_true] at hn
    exact .inl hn.2
  | addGroup h =>
    unfold addGroup? at h
    split at h <;> cases h
    exact .inl hn
  | join hu _ =>
    unfold joinGroup at hn
    split at hn
    · exact .inl hn
    · rw [hasUser, Table.contains_insert, Bool.or_eq_true, beq_iff_eq] at hn
      rcases hn with he | hn
      · rw [← he, hasUser, Table.contains, Option.isSome_iff_exists]
        exact .inl ⟨_, hu⟩
      · exact .inl hn
  | rename _ => exact .inl hn
  | kill h =>
    unfold kill? at h
    split at h <;> cases h
    exact .inl hn
  | killWhere _ => exact .inl hn

/-- Steps that may lose one user keep all others. -/
theorem Steps.keepsUsers {new old : String → Prop} (h : Steps new old s t)
    (hold : ∀ name, old name → lost = some name) : Keeps lost s t := by
  induction h with
  | refl => exact refl_of (Keeps lost) s
  | tail _ hstep ih =>
    refine trans_of (Keeps lost) ih ?_
    cases hstep with
    | switch h => exact keeps_switchUser h
    | addUser _ h => exact keeps_addUser h
    | removeUser h hc =>
      rw [hold _ h]
      exact keeps_removeUser hc
    | addGroup h => exact keeps_addGroup h
    | join => exact keeps_joinGroup _ _
    | rename => exact keeps_of_users rfl rfl
    | kill h =>
      unfold kill? at h
      split at h <;> cases h
      exact keeps_of_users rfl rfl
    | killWhere => exact keeps_of_users rfl rfl

end System

open PocketUnix.Action (Within)
open PocketUnix.System (Keeps)

variable {lost : Option String}

/-- The same of two machines. -/
def Machine.Keeps (lost : Option String) (m m' : Machine) : Prop :=
  m.system.Keeps lost m'.system

instance (lost : Option String) : IsPreorder Machine (Machine.Keeps lost) where
  refl m := refl_of (Keeps lost) m.system
  trans _ _ _ h h' := trans_of (Keeps lost) h h'

/-- The user who may be lost is the one that the operand names. -/
theorem Accounts.within_userdel (c : Call) :
    Within (Machine.Keeps ((c.options "").operand? 0)) (userdel c) := by
  intro m
  have hsteps : m.Steps (fun _ => False) (fun name => (c.options "").operand? 0 = some name)
      ((userdel c).after m) := steps_userdel (fun _ h => h) m
  exact hsteps.keepsUsers fun _ h => h

/-- What a command does to a machine. -/
def Outcome.Keeps (lost : Option String) (o : Outcome) (m : Machine) : Prop :=
  m.Keeps lost o.machine

namespace Outcome

theorem keeps_ofAction {action : Action Machine Reply}
    (h : Within (Machine.Keeps lost) action) (m : Machine) : (ofAction m action).Keeps lost m := by
  rw [Keeps, machine_ofAction]
  exact h m

theorem keeps_of_system_eq {o : Outcome} {m : Machine} (h : o.machine.system = m.system) :
    o.Keeps lost m := by
  rw [Keeps, Machine.Keeps, h]
  exact refl_of (System.Keeps lost) m.system

end Outcome

/-- Of the commands only one removes any users. -/
theorem Command.keeps_runPlain {command : Command} (c : Call) (m : Machine)
    (h : command ≠ .users .userdel) : (runPlain command c m).Keeps lost m := by
  have hsteps : (runPlain command c m).Steps (fun _ => True) (fun _ => False) m :=
    steps_runPlain m (fun _ _ _ => trivial) fun hdel => absurd hdel h
  exact System.Steps.keepsUsers hsteps nofun

end PocketUnix
