import PocketUnix.Proofs.Command.Job
import PocketUnix.Proofs.Table

/-!
# What commands leave as it is

Most commands only look. Of the others some work on the tree, some on the system tables, two on
both, and one goes to another directory. Behind `sudo` and `nice`, however deep, it is the innermost
command that decides what becomes of the tree and of the working directory.
-/

namespace PocketUnix.Command

/-- The commands that work on the tree and on nothing else. -/
def treeWorkers : List String :=
  ["mkdir", "touch", "rm", "cp", "mv", "ln", "chmod", "chown", "chgrp", "shred", "echo", "sed",
    "tee", "tar", "zip", "jar", "gzip", "bzip2", "xz", "gunzip", "curl", "wget"]

/-- The commands that work on the tables and, for a home directory, on the tree. -/
def homeWorkers : List String := ["useradd", "userdel"]

/-- The commands that work on the system tables and on nothing else. -/
def tableWorkers : List String :=
  ["su", "groupadd", "usermod", "hostname", "kill", "killall", "pkill"]

/-- All commands that can change anything. -/
def workers : List String := treeWorkers ++ homeWorkers ++ tableWorkers ++ ["cd"] ++ relays

/-- What a command leaves as it is, by its name. -/
structure Framed (name : String) (m m' : Machine) : Prop where
  still : name ∉ workers → m' = m
  system : name ∈ treeWorkers ∨ name = "cd" → m'.system = m.system
  root : name ∈ tableWorkers ∨ name = "cd" → m'.root = m.root
  cwd : name ∉ relays → m'.cwd ≠ m.cwd → name = "cd" ∧ m.root.isDirectoryAt m'.cwd = true

/-- The tree and the working directory change only as the innermost command lets them, which has
been run by the user or by the superuser. -/
structure FramedWithin (x : Context) (words : List String) (m m' : Machine) : Prop where
  inner : m'.root = m.root ∧ m'.cwd = m.cwd ∨
    ∃ m₀, (m₀ = m ∨ m₀ = m.withUser System.superuser) ∧
      m'.root = (run x (innermost words) m₀).machine.root ∧
      m'.cwd = (run x (innermost words) m₀).machine.cwd
  root : m'.root ≠ m.root → ∃ name ∈ (innermost words).head?, name ∈ treeWorkers ++ homeWorkers
  cwd : m'.cwd ≠ m.cwd →
    (innermost words).head? = some "cd" ∧ m.root.isDirectoryAt m'.cwd = true

variable {x : Context} {name : String} {args : List String} {command : Command} {m : Machine}

/-- The names are sorted as the commands behind them are. -/
theorem named_iff (hn : ofName? name = some command) :
    (name ∈ treeWorkers ↔ command.treeWork?.isSome = true) ∧
      (name ∈ homeWorkers ↔ command = .users .useradd ∨ command = .users .userdel) ∧
      (name ∈ tableWorkers ↔ command ∈ tableCommands) ∧ (name = "cd" ↔ command = .files .cd) ∧
      (name ∈ relays ↔ command = .users .sudo ∨ command = .process .nice) := by
  have htable : ∀ entry ∈ table,
      (entry.1 ∈ treeWorkers ↔ entry.2.treeWork?.isSome = true) ∧
        (entry.1 ∈ homeWorkers ↔ entry.2 = .users .useradd ∨ entry.2 = .users .userdel) ∧
        (entry.1 ∈ tableWorkers ↔ entry.2 ∈ tableCommands) ∧
        (entry.1 = "cd" ↔ entry.2 = .files .cd) ∧
        (entry.1 ∈ relays ↔ entry.2 = .users .sudo ∨ entry.2 = .process .nice) := by
    decide +kernel
  exact htable (name, command) (Table.mem_of_get? hn)

/-- Words that name no command leave everything as it is. -/
theorem machine_of_unnamed (hn : ofName? name = none) (x : Context) (args : List String)
    (m : Machine) : (run x (name :: args) m).machine = m := by
  rw [run.eq_def]
  simp only [hn]
  split
  · rfl
  · split <;> rfl

/-- A command that does not run another one changes what its name stands for and nothing else. The
tree is left to those that work on it, the tables to those that work on them, and the two that do
both are told apart by name. -/
theorem framed_runPlain (hn : ofName? name = some command) (c : Call) (m : Machine) :
    Framed name m (runPlain command c m).machine := by
  obtain ⟨htree, hhome, htables, hcd, hrelays⟩ := named_iff hn
  have hwork : name ∉ treeWorkers → command.treeWork? = none := by
    rw [htree, Bool.not_eq_true, Option.isSome_eq_false_iff, Option.isNone_iff_eq_none]
    exact id
  refine ⟨fun hstill => ?_, fun hname => ?_, fun hname => ?_, fun _ hcwd => ?_⟩
  · simp only [workers, List.mem_append, not_or] at hstill
    obtain ⟨⟨⟨⟨hnotree, hnohome⟩, hnotables⟩, hnocd⟩, -⟩ := hstill
    rw [hhome, not_or] at hnohome
    refine machine_runPlain c m (hwork hnotree) (mt htables.mpr hnotables) hnohome.1 hnohome.2 ?_
    exact mt hcd.mpr (mt List.mem_singleton.mpr hnocd)
  · rcases hname with hname | hname
    · obtain ⟨work, hwork⟩ := Option.isSome_iff_exists.mp (htree.mp hname)
      rw [runPlain_of_treeWork c m hwork, Outcome.machine_ofTree]
    · rw [hcd.mp hname]
      rcases machine_cd c m with hm | ⟨-, hm⟩ <;> rw [hm]
  · rcases hname with hname | hname
    · obtain ⟨system, hm⟩ := system_of_table c m (htables.mp hname)
      rw [hm]
    · rw [hcd.mp hname]
      rcases machine_cd c m with hm | ⟨-, hm⟩ <;> rw [hm]
  · by_cases hc : command = .files .cd
    · subst hc
      rcases machine_cd c m with hm | ⟨hdirectory, hm⟩
      · rw [hm] at hcwd
        exact absurd rfl hcwd
      · rw [hm]
        exact ⟨hcd.mpr rfl, hdirectory⟩
    · exact absurd (cwd_runPlain c m hc) hcwd

/-- Only the commands on the tree and those that make and remove homes change it. -/
theorem root_runPlain (hn : ofName? name = some command) (h : name ∉ treeWorkers ++ homeWorkers)
    (c : Call) (m : Machine) : (runPlain command c m).machine.root = m.root := by
  obtain ⟨htree, hhome, -, -, -⟩ := named_iff hn
  rw [List.mem_append, not_or, htree, hhome, not_or] at h
  obtain ⟨hwork, hadd, hdel⟩ := h
  refine root_of_treeWork_none c m ?_ hadd hdel
  rwa [Bool.not_eq_true, Option.isSome_eq_false_iff, Option.isNone_iff_eq_none] at hwork

/-- What relays leave as it is, is said of the innermost command. -/
theorem Framed.of_relay (h : name ∈ relays) (m m' : Machine) : Framed name m m' := by
  have hapart : ∀ n ∈ relays, n ∈ workers ∧ n ∉ treeWorkers ∧ n ∉ tableWorkers ∧ n ≠ "cd" := by
    decide
  obtain ⟨hworker, htree, htables, hcd⟩ := hapart name h
  exact ⟨fun hn => absurd hworker hn, fun hn => absurd hn (not_or.mpr ⟨htree, hcd⟩),
    fun hn => absurd hn (not_or.mpr ⟨htables, hcd⟩), fun hn => absurd h hn⟩

/-- Every command line has the frame of its first word, the relays among them, of which nothing is
said here. -/
theorem framed_run (x : Context) (name : String) (args : List String) (m : Machine) :
    Framed name m (run x (name :: args) m).machine := by
  by_cases hrelay : name ∈ relays
  · exact .of_relay hrelay _ _
  · cases hn : ofName? name with
    | none =>
      rw [machine_of_unnamed hn]
      exact ⟨fun _ => rfl, fun _ => rfl, fun _ => rfl, fun _ h => absurd rfl h⟩
    | some command =>
      have hplain := mt (named_iff hn).2.2.2.2.mpr hrelay
      rw [not_or] at hplain
      rw [run_plain x args m hn hplain.1 hplain.2]
      exact framed_runPlain hn _ m

/-- A job is that of the innermost command. -/
theorem innermost_of_job {words : List String} {j : Job} (h : job? x words m = some j) :
    ∃ name args, innermost words = name :: args ∧ ofName? name = some j.command ∧
      j.call = x.call name args ∧ j.command ≠ .users .sudo ∧ j.command ≠ .process .nice := by
  obtain ⟨m', -, hj⟩ := Option.bind_eq_some_iff.mp h
  obtain ⟨name, args, hw, hn, hsudo, hnice, hcall, -⟩ := plainJob?_eq_some_iff.mp hj
  exact ⟨name, args, hw, hn, hcall, hsudo, hnice⟩

/-- The tree and the working directory are those that the innermost command leaves. -/
theorem framedWithin_run (x : Context) (words : List String) (m : Machine) :
    FramedWithin x words m (run x words m).machine := by
  obtain ⟨user, hm⟩ := exists_user_run x words m
  rw [hm]
  cases hj : job? x words m with
  | none => exact ⟨.inl ⟨rfl, rfl⟩, fun h => absurd rfl h, fun h => absurd rfl h⟩
  | some j =>
    obtain ⟨name, args, hinner, hn, hcall, hsudo, hnice⟩ := innermost_of_job hj
    have hmachine : j.machine = m ∨ j.machine = m.withUser System.superuser :=
      (machine_of_job hj).imp_right And.right
    have hroot : j.machine.root = m.root := root_of_job hj
    have hcwd : j.machine.cwd = m.cwd := by rcases hmachine with h | h <;> exact h ▸ rfl
    have hrun : run x (innermost words) j.machine = j.outcome := by
      rw [hinner, run_plain x args j.machine hn hsudo hnice, ← hcall, Job.outcome]
    have hframed : Framed name j.machine j.outcome.machine := framed_runPlain hn j.call j.machine
    refine ⟨.inr ⟨j.machine, hmachine, hrun ▸ rfl, hrun ▸ rfl⟩, fun hchanged => ?_, fun hgone => ?_⟩
    · refine ⟨name, by rw [hinner, List.head?_cons]; rfl, ?_⟩
      refine Decidable.byContradiction fun hworker => hchanged ?_
      exact (root_runPlain hn hworker j.call j.machine).trans hroot
    · have hrelay : name ∉ relays := by
        rw [(named_iff hn).2.2.2.2]
        exact not_or.mpr ⟨hsudo, hnice⟩
      obtain ⟨hcd, hdirectory⟩ := hframed.cwd hrelay fun h => hgone (h.trans hcwd)
      rw [hinner, hcd, List.head?_cons, ← hroot]
      exact ⟨rfl, hdirectory⟩

/-- Every command leaves as it is what its name does not stand for, and behind `sudo` and `nice` the
tree and the working directory change only as the innermost command lets them. -/
theorem run_framed (x : Context) (m : Machine) :
    (∀ name args, Framed name m (run x (name :: args) m).machine) ∧
      ∀ words, FramedWithin x words m (run x words m).machine :=
  ⟨fun name args => framed_run x name args m, fun words => framedWithin_run x words m⟩

/-- Behind three of them `cd` still goes where it is told, and to a directory. -/
theorem run_framed_nested :
    let words := ["nice", "-n", "5", "sudo", "nice", "cd", "/etc"]
    innermost words = ["cd", "/etc"] ∧
      (run Sample.context words Sample.machine).machine.cwd = ["etc"] ∧
      Sample.machine.root.isDirectoryAt ["etc"] = true := by
  intro words
  have hcwd : (run Sample.context words Sample.machine).machine.cwd = ["etc"] := by decide +kernel
  have hframed := (run_framed Sample.context Sample.machine).2 words
  refine ⟨by decide +kernel, hcwd, ?_⟩
  rw [← hcwd]
  exact (hframed.cwd (by rw [hcwd]; decide)).2

end PocketUnix.Command
