import PocketUnix.Proofs.Command.SystemSteps

/-!
# Which commands work on the tree

A command works on the tree alone, or it adds or removes a user and with him a home directory, or
it leaves the tree as it is. What is to be known of all trees that commands leave behind is known
once it is known of that work.
-/

namespace PocketUnix

open PocketUnix.Action (Within within_pure within_fail)

/-- A relation of trees, as one of the machines that hold them. -/
def Machine.RootsIn (R : Node → Node → Prop) (m m' : Machine) : Prop := R m.root m'.root

/-- The machines have the same working directory. -/
def Machine.Staying (m m' : Machine) : Prop := m'.cwd = m.cwd

instance : IsPreorder Machine Machine.Staying where
  refl _ := rfl
  trans _ _ _ h h' := Eq.trans h' h

variable {R : Node → Node → Prop} {α : Type}

theorem Action.staying_onTree (action : Action Node α) : Within Machine.Staying action.onTree := by
  intro m
  rw [after_onTree]
  rfl

theorem Action.staying_onSystem (action : Action System α) :
    Within Machine.Staying action.onSystem := by
  intro m
  rw [after_onSystem]
  rfl

theorem Action.rootsIn_onTree {action : Action Node α} (h : Within R action) :
    Within (Machine.RootsIn R) action.onTree := by
  intro m
  rw [after_onTree]
  exact h m.root

section Preorder

variable [IsPreorder Node R]

instance : IsPreorder Machine (Machine.RootsIn R) where
  refl m := refl_of R m.root
  trans _ _ _ h h' := trans_of R h h'

theorem Action.rootsIn_onSystem (action : Action System α) :
    Within (Machine.RootsIn R) action.onSystem := by
  intro m
  rw [after_onSystem]
  exact refl_of R m.root

namespace Accounts

theorem rootsIn_useradd {c : Call} (m : Machine)
    (h : ∀ name, (c.options "gGsd").operand? 0 = some name → Within R (makeHome name c.now)) :
    Within (Machine.RootsIn R) (useradd c m) :=
  within_useradd m (fun _ _ => Action.rootsIn_onSystem _) fun name hn =>
    Action.rootsIn_onTree (h name hn)

theorem rootsIn_userdel {c : Call}
    (h : ∀ name, (c.options "").operand? 0 = some name → (c.options "").has 'r' = true →
      Within R (removeHome name)) : Within (Machine.RootsIn R) (userdel c) :=
  within_userdel_of (fun _ _ => Action.rootsIn_onSystem _) fun name hn hr =>
    Action.rootsIn_onTree (h name hn hr)

end Accounts

section Written

variable {c : Call} {m : Machine}
  (hwrite : ∀ operand text appending, Within R (c.writeFile m operand text appending))

include hwrite

namespace Writing

theorem within_echo : Within R (echo c m) := by
  refine Action.within_planned fun plan _ => ?_
  obtain ⟨words, redirection⟩ := plan
  cases redirection with
  | none => exact within_pure _
  | some r => exact (hwrite _ _ _).bind fun _ => within_pure _

theorem within_tee : Within R (tee c m) := by
  refine Action.within_planned fun _ _ => ?_
  exact (Within.forM (fun operand => hwrite operand _ _) _).bind fun _ => within_pure _

theorem within_sed : Within R (sed c m) := by
  refine Action.within_planned fun plan _ => ?_
  obtain ⟨result, file⟩ := plan
  cases file with
  | none => exact within_pure _
  | some file => exact (hwrite _ _ _).bind fun _ => within_pure _

theorem within_download : Within R (download c m) := by
  unfold download
  dsimp only
  split
  · exact within_fail _
  · exact (hwrite _ _ _).bind fun _ => within_pure _

end Writing

namespace Archive

theorem within_pack (name : String) (sources : List String) : Within R (pack c m name sources) :=
  Action.within_planned fun _ _ => hwrite name body false

/-- An archive is written or listed, and only writing changes the tree. -/
theorem within_tar : Within R (tar c m) := by
  unfold tar
  dsimp only
  split
  · exact within_fail _
  · split
    · exact (within_pack hwrite _ _).bind fun _ => within_pure _
    · split
      · exact within_pure _
      · exact within_fail _

theorem within_zip : Within R (zip c m) :=
  (within_pack hwrite _ _).bind fun _ => within_pure _

theorem within_jar : Within R (jar c m) := by
  unfold jar
  split
  · exact within_pure _
  · exact (within_pack hwrite _ _).bind fun _ => within_pure _

end Archive

end Written

end Preorder

namespace Archive

/-- The suffix that a command is about, and whether it is added or taken away. -/
def recompression? (command : ArchiveCommand) (c : Call) : Option (String × Direction) :=
  let direction : Direction := if (c.options "").has 'd' then .expand else .compress
  match command with
  | .gzip => some (".gz", direction)
  | .bzip2 => some (".bz2", direction)
  | .xz => some (".xz", direction)
  | .gunzip => some (".gz", .expand)
  | _ => none

end Archive

namespace Command

/-- What a command does that works on the tree and on nothing else. -/
def treeWork? : Command → Option (Call → Machine → TreeAction)
  | .files .chgrp => some (Editing.chown true)
  | .files .chmod => some Editing.chmod
  | .files .chown => some (Editing.chown false)
  | .files .cp => some (Transfer.run .copy)
  | .files .ln => some Editing.ln
  | .files .mkdir => some Editing.mkdir
  | .files .mv => some (Transfer.run .move)
  | .files .rm => some Editing.rm
  | .files .shred => some Editing.shred
  | .files .touch => some Editing.touch
  | .text .echo => some Writing.echo
  | .text .sed => some Writing.sed
  | .text .tee => some Writing.tee
  | .network .curl => some Writing.download
  | .network .wget => some Writing.download
  | .archive .tar => some Archive.tar
  | .archive .zip => some Archive.zip
  | .archive .jar => some Archive.jar
  | .archive .gzip => some (Archive.compress ".gz")
  | .archive .bzip2 => some (Archive.compress ".bz2")
  | .archive .xz => some (Archive.compress ".xz")
  | .archive .gunzip => some (Archive.recompress ".gz" .expand)
  | _ => none

variable {command : Command} (c : Call) (m : Machine)

theorem runPlain_of_treeWork {work : Call → Machine → TreeAction}
    (h : command.treeWork? = some work) : runPlain command c m = .ofTree m (work c m) := by
  unfold treeWork? at h
  split at h <;> cases h <;> rfl

/-- The commands that work on the system tables and on nothing else. -/
def tableCommands : List Command := [
  .users .su, .users .groupadd, .users .usermod, .host .hostname, .process .kill,
  .process .killall, .process .pkill]

/-- All other commands but three leave everything as it is. -/
theorem machine_runPlain (h : command.treeWork? = none) (htables : command ∉ tableCommands)
    (hadd : command ≠ .users .useradd) (hdel : command ≠ .users .userdel)
    (hcd : command ≠ .files .cd) : (runPlain command c m).machine = m := by
  cases command with
  | files k =>
    cases k
    case cd => exact absurd rfl hcd
    all_goals first
      | rfl
      | cases h
  | text k =>
    cases k
    all_goals first
      | rfl
      | cases h
  | process k =>
    cases k
    case kill | killall | pkill => exact absurd (by decide) htables
    all_goals rfl
  | host k =>
    cases k
    case hostname => exact absurd (by decide) htables
    all_goals rfl
  | network k =>
    cases k
    case ping =>
      simp only [runPlain, Net.run]
      split <;> rfl
    all_goals first
      | rfl
      | cases h
  | users k =>
    cases k
    case useradd => exact absurd rfl hadd
    case userdel => exact absurd rfl hdel
    case su | groupadd | usermod => exact absurd (by decide) htables
    all_goals rfl
  | archive k =>
    cases k
    all_goals first
      | rfl
      | cases h
  | disk k => cases k <;> rfl
  | session k => cases k <;> rfl

theorem system_of_table (h : command ∈ tableCommands) :
    ∃ system, (runPlain command c m).machine = { m with system } := by
  simp only [tableCommands, List.mem_cons, List.not_mem_nil, or_false] at h
  rcases h with rfl | rfl | rfl | rfl | rfl | rfl | rfl
  all_goals exact ⟨_, Outcome.machine_ofSystem m _⟩

/-- All commands that do not work on the tree leave everything but the system tables as it is,
except for three. -/
theorem exists_system_runPlain (h : command.treeWork? = none) (hadd : command ≠ .users .useradd)
    (hdel : command ≠ .users .userdel) (hcd : command ≠ .files .cd) :
    ∃ system, (runPlain command c m).machine = { m with system } := by
  by_cases htables : command ∈ tableCommands
  · exact system_of_table c m htables
  · exact ⟨m.system, machine_runPlain c m h htables hadd hdel hcd⟩

/-- `cd` stays where it is, or goes to the directory that it is told. -/
theorem machine_cd : (runPlain (.files .cd) c m).machine = m ∨
    m.root.isDirectoryAt (m.resolve (c.args.headD "~")) = true ∧
      (runPlain (.files .cd) c m).machine = { m with cwd := m.resolve (c.args.headD "~") } := by
  simp only [runPlain, Files.run, Files.cd]
  split
  · next h => exact .inr ⟨h, rfl⟩
  · exact .inl rfl

theorem root_of_treeWork_none (h : command.treeWork? = none) (hadd : command ≠ .users .useradd)
    (hdel : command ≠ .users .userdel) : (runPlain command c m).machine.root = m.root := by
  by_cases hcd : command = .files .cd
  · subst hcd
    rcases machine_cd c m with hm | ⟨-, hm⟩ <;> rw [hm]
  · obtain ⟨system, hm⟩ := exists_system_runPlain c m h hadd hdel hcd
    rw [hm]

/-- No command goes anywhere but `cd`. -/
theorem cwd_runPlain (hcd : command ≠ .files .cd) : (runPlain command c m).machine.cwd = m.cwd := by
  cases hwork : command.treeWork? with
  | some work => rw [runPlain_of_treeWork c m hwork, Outcome.machine_ofTree]
  | none =>
    by_cases hadd : command = .users .useradd
    · subst hadd
      rw [runPlain, Accounts.run, Outcome.machine_ofAction]
      exact Accounts.within_useradd m (fun _ _ => Action.staying_onSystem _)
        (fun _ _ => Action.staying_onTree _) m
    · by_cases hdel : command = .users .userdel
      · subst hdel
        rw [runPlain, Accounts.run, Outcome.machine_ofAction]
        exact Accounts.within_userdel_of (fun _ _ => Action.staying_onSystem _)
          (fun _ _ _ => Action.staying_onTree _) m
      · obtain ⟨system, hm⟩ := exists_system_runPlain c m hwork hadd hdel hcd
        rw [hm]

section Related

variable {c m} [IsPreorder Node R]
  (edit : ∀ k work, command = .files k → command.treeWork? = some work →
    R m.root ((work c m).after m.root))
  (write : ∀ operand text appending, Within R (c.writeFile m operand text appending))
  (recompress : ∀ k suffix direction, command = .archive k →
    Archive.recompression? k c = some (suffix, direction) →
      R m.root ((Archive.recompress suffix direction c m).after m.root))

include edit write recompress

/-- A command that works on the tree edits nodes, or writes files, or compresses them. -/
theorem related_treeWork {work : Call → Machine → TreeAction} (h : command.treeWork? = some work) :
    R m.root ((work c m).after m.root) := by
  cases command with
  | files k => exact edit k work rfl h
  | text k =>
    cases k <;> cases h
    case text.echo.refl => exact Writing.within_echo write m.root
    case text.sed.refl => exact Writing.within_sed write m.root
    case text.tee.refl => exact Writing.within_tee write m.root
  | network k =>
    cases k <;> cases h
    all_goals exact Writing.within_download write m.root
  | archive k =>
    cases k <;> cases h
    case archive.tar.refl => exact Archive.within_tar write m.root
    case archive.zip.refl => exact Archive.within_zip write m.root
    case archive.jar.refl => exact Archive.within_jar write m.root
    all_goals exact recompress _ _ _ rfl rfl
  | process k => cases h
  | host k => cases h
  | users k => cases h
  | disk k => cases h
  | session k => cases h

/-- To see how a command changes the tree, it is enough to look at that work, and at the homes that
are made and removed with users. -/
theorem related_runPlain
    (useradd : command = .users .useradd → ∀ name, (c.options "gGsd").operand? 0 = some name →
      Within R (Accounts.makeHome name c.now))
    (userdel : command = .users .userdel → ∀ name, (c.options "").operand? 0 = some name →
      (c.options "").has 'r' = true → Within R (Accounts.removeHome name)) :
    R m.root (runPlain command c m).machine.root := by
  cases hwork : command.treeWork? with
  | some work =>
    rw [runPlain_of_treeWork c m hwork, Outcome.machine_ofTree]
    exact related_treeWork edit write recompress hwork
  | none =>
    by_cases hadd : command = .users .useradd
    · subst hadd
      have hwithin : Machine.RootsIn R m ((Accounts.useradd c m).after m) :=
        Accounts.rootsIn_useradd m (useradd rfl) m
      rw [runPlain, Accounts.run, Outcome.machine_ofAction]
      exact hwithin
    · by_cases hdel : command = .users .userdel
      · subst hdel
        have hwithin : Machine.RootsIn R m ((Accounts.userdel c).after m) :=
          Accounts.rootsIn_userdel (userdel rfl) m
        rw [runPlain, Accounts.run, Outcome.machine_ofAction]
        exact hwithin
      · rw [root_of_treeWork_none c m hwork hadd hdel]
        exact refl_of R m.root

end Related

end Command

end PocketUnix
