import PocketUnix.Proofs.Command.Superuser
import PocketUnix.Proofs.Command.TreeWork

/-!
# What command lines come to

Behind `sudo` and `nice` there is one command, with a call of its own, that is run on the machine
under some user. A command line does what that command does, and besides may only change hands.
-/

namespace PocketUnix

namespace Editing

/-- The call asks for a link: this node, to be put into that directory. -/
def Links (c : Call) (m : Machine) (parent : Path) (n : Node) : Prop :=
  ∃ target link rest, (c.options "").operands = target :: link :: rest ∧
    planLn c m (if (c.options "").has 's' then .symbolic else .hard) ((c.options "").has 'f')
      target link = .ok (parent, n)

end Editing

namespace Archive

/-- The call asks for these renamings, and all of its operands are accepted. -/
def Renames (command : ArchiveCommand) (c : Call) (m : Machine) (plan : List Renaming) : Prop :=
  ∃ suffix direction, recompression? command c = some (suffix, direction) ∧
    planAll c m suffix direction (c.options "").operands = .ok plan

end Archive

/-- A command that does not run another one, with its call and the machine to run it on. -/
structure Job where
  command : Command
  call : Call
  machine : Machine

namespace Job

def outcome (j : Job) : Outcome := Command.runPlain j.command j.call j.machine

/-- The names that a job makes up rather than reads from a path. -/
inductive Coins : Job → String → Prop
  | link {c : Call} {m : Machine} {parent : Path} {n : Node} (h : Editing.Links c m parent n) :
    Coins ⟨.files .ln, c, m⟩ n.name
  | renamed {command : ArchiveCommand} {c : Call} {m : Machine} {plan : List Archive.Renaming}
    {r : Archive.Renaming} (h : Archive.Renames command c m plan) (hr : r ∈ plan) :
    Coins ⟨.archive command, c, m⟩ r.name
  | user {c : Call} {m : Machine} {name : String} (h : (c.options "gGsd").operand? 0 = some name) :
    Coins ⟨.users .useradd, c, m⟩ name

end Job

namespace Command

/-- The command that the words name, unless it runs another one. -/
def plainJob? (x : Context) (m : Machine) : List String → Option Job
  | [] => none
  | name :: args =>
    match ofName? name with
    | none | some (.users .sudo) | some (.process .nice) => none
    | some command => some ⟨command, x.call name args, m⟩

/-- The machine that an errand is run on. Nobody but a superuser can run what is raised. -/
def Errand.machine? (e : Errand) (m : Machine) : Option Machine :=
  if e.raised then
    if m.system.hasUser System.superuser then some (m.withUser System.superuser) else none
  else some m

/-- The job that words come to, if they come to any. -/
def job? (x : Context) (words : List String) (m : Machine) : Option Job :=
  ((errand words).machine? m).bind fun m' => plainJob? x m' (innermost words)

/-- A command that does not run another one is run at once. -/
theorem run_plain (x : Context) {name : String} {command : Command} (args : List String)
    (m : Machine) (hn : ofName? name = some command) (hsudo : command ≠ .users .sudo)
    (hnice : command ≠ .process .nice) :
    run x (name :: args) m = runPlain command (x.call name args) m := by
  obtain ⟨hmanager, hinterpreter⟩ := not_manager_of_name hn
  rw [run.eq_def]
  simp only [if_neg hmanager, if_neg hinterpreter, hn]

section Jobs

variable {x : Context} {words inner : List String} {m : Machine} {name : String}
  {args : List String} {command : Command} {j : Job}

theorem plainJob?_of_name (hn : ofName? name = some command) (hsudo : command ≠ .users .sudo)
    (hnice : command ≠ .process .nice) :
    plainJob? x m (name :: args) = some ⟨command, x.call name args, m⟩ := by
  simp only [plainJob?, hn]

/-- A job is read off the words with the command that they name. -/
theorem plainJob?_eq_some_iff : plainJob? x m words = some j ↔
    ∃ name args, words = name :: args ∧ ofName? name = some j.command ∧
      j.command ≠ .users .sudo ∧ j.command ≠ .process .nice ∧ j.call = x.call name args ∧
      j.machine = m := by
  constructor
  · intro h
    unfold plainJob? at h
    split at h
    · cases h
    · next name args =>
      split at h
      · cases h
      · cases h
      · cases h
      · next command hsudo hnice hn =>
        cases h
        exact ⟨name, args, rfl, hn, hsudo, hnice, rfl, rfl⟩
  · rintro ⟨name, args, rfl, hn, hsudo, hnice, hcall, hm⟩
    rw [plainJob?_of_name hn hsudo hnice, ← hcall, ← hm]

theorem plainJob?_of_idle {answer : Answer} (h : Idle words answer) :
    plainJob? x m words = none := by
  refine Option.eq_none_iff_forall_ne_some.mpr fun j hj => ?_
  obtain ⟨name, args, rfl, hn, hsudo, hnice, -⟩ := plainJob?_eq_some_iff.mp hj
  exact (h.relay_of_name hn).elim hsudo hnice

theorem job?_of_not_handedOn (h : handedOn? words = none) : job? x words m = plainJob? x m words := by
  rw [job?, errand_of_not_handedOn h, innermost_of_not_handedOn h]
  rfl

/-- A command that does not run another one is itself the job. -/
theorem job?_plain (hn : ofName? name = some command) (hsudo : command ≠ .users .sudo)
    (hnice : command ≠ .process .nice) :
    job? x (name :: args) m = some ⟨command, x.call name args, m⟩ := by
  rw [job?_of_not_handedOn (handedOn?_of_name hn hsudo hnice), plainJob?_of_name hn hsudo hnice]

/-- The job of what `nice` runs is that of the words behind its priority. -/
theorem job?_passed (h : handedOn? words = some ⟨false, inner⟩) :
    job? x words m = job? x inner m := by
  rw [job?, job?, errand_passed h, innermost_of_handedOn h]

/-- Where there is no superuser nothing comes of what is raised. -/
theorem job?_refused (h : handedOn? words = some ⟨true, inner⟩)
    (hroot : m.system.hasUser System.superuser = false) : job? x words m = none := by
  have hnobody : (errand words).machine? m = none := by
    rw [errand_of_handedOn h, Errand.machine?, if_pos (Bool.true_or _), hroot]
    rfl
  rw [job?, hnobody, Option.bind_none]

/-- Raised or not, an errand of the superuser is run on his machine. -/
theorem Errand.machine?_withUser (e : Errand) (hroot : m.system.hasUser System.superuser = true) :
    e.machine? (m.withUser System.superuser) = some (m.withUser System.superuser) := by
  unfold Errand.machine?
  split
  · exact if_pos hroot
  · rfl

/-- What `sudo` hands on comes to the job that the superuser would come to. -/
theorem job?_raised (h : handedOn? words = some ⟨true, inner⟩)
    (hroot : m.system.hasUser System.superuser = true) :
    job? x words m = job? x inner (m.withUser System.superuser) := by
  have hraised : (errand words).machine? m = some (m.withUser System.superuser) := by
    rw [errand_of_handedOn h, Errand.machine?, if_pos (Bool.true_or _), if_pos hroot]
  rw [job?, job?, hraised, Errand.machine?_withUser _ hroot, innermost_of_handedOn h]

/-- A job runs on the machine of its command line, under its user or under the superuser. -/
theorem machine_of_job (h : job? x words m = some j) :
    j.machine = m ∨ m.system.hasUser System.superuser = true ∧
      j.machine = m.withUser System.superuser := by
  obtain ⟨m', hm', hj⟩ := Option.bind_eq_some_iff.mp h
  obtain ⟨-, -, -, -, -, -, -, hm⟩ := plainJob?_eq_some_iff.mp hj
  rw [hm]
  unfold Errand.machine? at hm'
  split at hm'
  · split at hm'
    · next hroot =>
      cases hm'
      exact .inr ⟨hroot, rfl⟩
    · cases hm'
  · cases hm'
    exact .inl rfl

theorem root_of_job (h : job? x words m = some j) : j.machine.root = m.root := by
  rcases machine_of_job h with hm | ⟨-, hm⟩
  · rw [hm]
  · rw [hm]
    rfl

end Jobs

/-- Handing the machine back changes at most who works on it. -/
theorem exists_user_handBack (caller : String) (inner : Outcome) :
    ∃ user, (handBack caller inner).machine = inner.machine.withUser user := by
  cases h : inner.machine.system.hasUser caller with
  | true => exact ⟨caller, handBack_known h⟩
  | false => exact ⟨inner.machine.user, handBack_unknown h⟩

/-- A command line does what its job does, under another user perhaps. -/
theorem Runs.exists_user {x : Context} {words : List String} {m : Machine} {o : Outcome}
    (h : Runs x words m o) :
    ∃ user, o.machine = ((job? x words m).elim m fun j => j.outcome.machine).withUser user := by
  induction h with
  | @plain name args m command hn hsudo hnice =>
    rw [job?_plain hn hsudo hnice]
    exact ⟨_, rfl⟩
  | @idle words m answer hnone h =>
    rw [job?_of_not_handedOn hnone, plainJob?_of_idle h]
    exact ⟨m.user, rfl⟩
  | @refused words inner m h hroot =>
    rw [job?_refused h hroot]
    exact ⟨m.user, rfl⟩
  | @raised words inner m o h hroot hinner ih =>
    obtain ⟨user, hmachine⟩ := ih
    obtain ⟨last, hback⟩ := exists_user_handBack m.user o
    refine ⟨last, ?_⟩
    rw [job?_raised h hroot, hback, hmachine]
    cases job? x inner (m.withUser System.superuser) <;> rfl
  | passed h _ ih =>
    rw [job?_passed h]
    exact ih

theorem exists_user_run (x : Context) (words : List String) (m : Machine) :
    ∃ user, (run x words m).machine =
      ((job? x words m).elim m fun j => j.outcome.machine).withUser user :=
  (runs_run x words m).exists_user

end Command

end PocketUnix
