import PocketUnix.Proofs.Command.Accounts
import PocketUnix.Proofs.Sample

/-!
# Commands on the system tables

A command that works on users, groups, processes or the name of the host does all of its work or
none of it, but for `usermod` with a list of groups.
-/

namespace PocketUnix

open PocketUnix.Action (KeepsOnFault)

/-- A name that is refused is not taken over. -/
theorem Host.keepsOnFault_hostname (c : Call) (s : System) : KeepsOnFault (hostname c) s := by
  intro fault s' h
  unfold hostname at h
  dsimp only at h
  split at h
  · cases h
  · split at h
    · cases h
    · split at h <;> cases h
      rfl

namespace Processes

/-- The number is read before any process is ended. -/
theorem keepsOnFault_kill (c : Call) (s : System) : KeepsOnFault (kill c) s := by
  unfold kill
  split
  · exact (Action.succeeds_pure _ s).keepsOnFault
  · refine Action.keepsOnFault_ofExcept_bind fun pid _ => ?_
    exact KeepsOnFault.bind_pure (Action.keepsOnFault_update _ s) fun _ => Reply.output _

/-- Where no process matches, none is ended. -/
theorem killWhere_of_none {s : System} {p : String → Bool}
    (h : (s.killWhere p).1.isEmpty = true) : (s.killWhere p).2 = s := by
  simp only [System.killWhere, List.partition_eq_filter_filter, List.isEmpty_iff,
    List.filter_eq_nil_iff] at h ⊢
  rw [List.filter_eq_self.mpr (by simpa using h)]

/-- It fails where no process has the name, and then none has been ended. -/
theorem keepsOnFault_killall (c : Call) (s : System) : KeepsOnFault (killall c) s := by
  refine Action.keepsOnFault_ofExcept_bind fun name _ => ?_
  intro fault s' h
  rw [Action.bind_apply, endWhere, Action.update_ok rfl] at h
  dsimp only at h
  split at h
  · next hnone =>
    cases h
    exact killWhere_of_none (s := s) (p := (· == name)) hnone
  · cases h

theorem keepsOnFault_pkill (c : Call) (s : System) : KeepsOnFault (pkill c) s := by
  refine Action.keepsOnFault_ofExcept_bind fun part _ => ?_
  exact KeepsOnFault.bind_pure (Action.keepsOnFault_update _ s) fun _ => Reply.empty

end Processes

namespace Command

/-- The commands that work on the system tables. -/
def systemCommands : List String :=
  ["useradd", "userdel", "groupadd", "usermod", "su", "hostname", "kill", "killall", "pkill"]

/-- A command on the system tables that fails leaves a change behind exactly if it is a `usermod`
that has joined some of its groups, and then only the table of users has changed. -/
theorem run_systemFault (x : Context) {name : String} (hname : name ∈ systemCommands)
    (args : List String) (m : Machine) {fault : Fault}
    (h : (run x (name :: args) m).answer = .error fault) :
    (∃ users, (run x (name :: args) m).machine = { m with system := { m.system with users } }) ∧
      ((run x (name :: args) m).machine = m ↔
        ¬(name = "usermod" ∧ Accounts.HalfJoins m.system args)) := by
  have hkept : name ≠ "usermod" → (run x (name :: args) m).KeepsOnFault m →
      (∃ users, (run x (name :: args) m).machine = { m with system := { m.system with users } }) ∧
        ((run x (name :: args) m).machine = m ↔
          ¬(name = "usermod" ∧ Accounts.HalfJoins m.system args)) :=
    fun hne hk => ⟨⟨m.system.users, hk fault h⟩, fun _ hj => hne hj.1, fun _ => hk fault h⟩
  simp only [systemCommands, List.mem_cons, List.not_mem_nil, or_false] at hname
  rcases hname with rfl | rfl | rfl | rfl | rfl | rfl | rfl | rfl | rfl
  · exact hkept (by decide) (Outcome.keepsOnFault_ofAction (Accounts.keepsOnFault_useradd _ m))
  · exact hkept (by decide) (Outcome.keepsOnFault_ofAction (Accounts.keepsOnFault_userdel _ m))
  · exact hkept (by decide) (Outcome.keepsOnFault_ofSystem (Accounts.keepsOnFault_groupadd _ _))
  · obtain ⟨system, hs, hm⟩ := Outcome.ofSystem_error h
    obtain ⟨⟨users, rfl⟩, hiff⟩ := Accounts.usermod_error hs
    refine ⟨⟨users, hm⟩, ?_⟩
    rw [show (run x ("usermod" :: args) m).machine = _ from hm]
    constructor
    · exact fun he hj => hiff.mp (congrArg Machine.system he) hj.2
    · intro hj
      rw [hiff.mpr fun hh => hj ⟨rfl, hh⟩]
  · exact hkept (by decide) (Outcome.keepsOnFault_ofSystem (Accounts.keepsOnFault_su _ _))
  · exact hkept (by decide) (Outcome.keepsOnFault_ofSystem (Host.keepsOnFault_hostname _ _))
  · exact hkept (by decide) (Outcome.keepsOnFault_ofSystem (Processes.keepsOnFault_kill _ _))
  · exact hkept (by decide) (Outcome.keepsOnFault_ofSystem (Processes.keepsOnFault_killall _ _))
  · exact hkept (by decide) (Outcome.keepsOnFault_ofSystem (Processes.keepsOnFault_pkill _ _))

/-- The user has joined the first group when the second one turns out not to be known. -/
theorem run_systemFault_half :
    (run Sample.context ["usermod", "-G", "root,nosuch", "user"] Sample.machine).answer =
        .error (.notFound (.group "usermod" "nosuch")) ∧
      (run Sample.context ["usermod", "-G", "root,nosuch", "user"] Sample.machine).machine ≠
        Sample.machine := by
  have h : (run Sample.context ["usermod", "-G", "root,nosuch", "user"] Sample.machine).answer =
      .error (.notFound (.group "usermod" "nosuch")) := by decide +kernel
  refine ⟨h, fun hsame => ?_⟩
  refine (run_systemFault Sample.context (by decide) _ Sample.machine h).2.mp hsame ⟨rfl, ?_⟩
  exact ⟨"root,nosuch", "user", ⟨1000, "user", ["sudo"]⟩, ["root"], "nosuch", [], by decide,
    by decide, by decide +kernel, by decide, by decide +kernel, by decide +kernel, "root",
    by decide, by decide⟩

end Command

end PocketUnix
