import PocketUnix.Proofs.Command.Editing
import PocketUnix.Proofs.Command.Transfer
import PocketUnix.Proofs.Command.Writing
import PocketUnix.Proofs.Sample

/-!
# Commands on the tree

A command that works on the tree does all of its work or none of it. What `cp` and `mv` do is told
in full.
-/

namespace PocketUnix

/-- Who cannot go to a directory stays where he is. -/
theorem Files.keepsOnFault_cd (c : Call) (m : Machine) : (cd c m).KeepsOnFault m := by
  unfold cd
  dsimp only
  split
  · intro fault h
    cases h
  · exact Outcome.keepsOnFault_fail m _

namespace Command

/-- The commands that work on the tree, or on the place in it. -/
def treeCommands : List String :=
  ["cd", "mkdir", "touch", "rm", "cp", "mv", "ln", "chmod", "chown", "chgrp", "shred", "echo",
    "tee", "sed", "tar", "zip", "jar", "curl", "wget"]

/-- A command that works on the tree, or on the place in it, does all of its work or none. Each of
them plans first and accepts no plan that could fail half way, so that whatever fails has not begun.
-/
theorem run_keepsOnFault (x : Context) {name : String} (hname : name ∈ treeCommands)
    (args : List String) (m : Machine) {fault : Fault}
    (h : (run x (name :: args) m).answer = .error fault) :
    (run x (name :: args) m).machine = m := by
  revert h
  revert fault
  change (run x (name :: args) m).KeepsOnFault m
  simp only [treeCommands, List.mem_cons, List.not_mem_nil, or_false] at hname
  rcases hname with rfl | rfl | rfl | rfl | rfl | rfl | rfl | rfl | rfl | rfl | rfl | rfl | rfl |
    rfl | rfl | rfl | rfl | rfl | rfl
  · exact Files.keepsOnFault_cd _ m
  · exact Outcome.keepsOnFault_ofTree (Editing.keepsOnFault_mkdir _ m)
  · exact Outcome.keepsOnFault_ofTree (Editing.keepsOnFault_touch _ m)
  · exact Outcome.keepsOnFault_ofTree (Editing.keepsOnFault_rm _ m)
  · exact Outcome.keepsOnFault_ofTree (Transfer.keepsOnFault_run .copy _ m)
  · exact Outcome.keepsOnFault_ofTree (Transfer.keepsOnFault_run .move _ m)
  · exact Outcome.keepsOnFault_ofTree (Editing.keepsOnFault_ln _ m)
  · exact Outcome.keepsOnFault_ofTree (Editing.keepsOnFault_chmod _ m)
  · exact Outcome.keepsOnFault_ofTree (Editing.keepsOnFault_chown false _ m)
  · exact Outcome.keepsOnFault_ofTree (Editing.keepsOnFault_chown true _ m)
  · exact Outcome.keepsOnFault_ofTree (Editing.keepsOnFault_shred _ m)
  · exact Outcome.keepsOnFault_ofTree (Writing.keepsOnFault_echo _ m)
  · exact Outcome.keepsOnFault_ofTree (Writing.keepsOnFault_tee _ m)
  · exact Outcome.keepsOnFault_ofTree (Writing.keepsOnFault_sed _ m)
  · exact Outcome.keepsOnFault_ofTree (Archive.keepsOnFault_tar _ m)
  · exact Outcome.keepsOnFault_ofTree (Archive.keepsOnFault_zip _ m)
  · exact Outcome.keepsOnFault_ofTree (Archive.keepsOnFault_jar _ m)
  · exact Outcome.keepsOnFault_ofTree (Writing.keepsOnFault_download _ m)
  · exact Outcome.keepsOnFault_ofTree (Writing.keepsOnFault_download _ m)

/-- A directory cannot be moved along with a file in it. -/
theorem run_keepsOnFault_nested :
    (run Sample.context ["mv", "docs", "docs/todo.list", "scripts"] Sample.machine).answer =
        .error (.invalid (.overlaps "mv" "docs/todo.list" "docs")) ∧
      (run Sample.context ["mv", "docs", "docs/todo.list", "scripts"] Sample.machine).machine =
        Sample.machine := by
  have h : (run Sample.context ["mv", "docs", "docs/todo.list", "scripts"] Sample.machine).answer =
      .error (.invalid (.overlaps "mv" "docs/todo.list" "docs")) := by decide +kernel
  exact ⟨h, run_keepsOnFault Sample.context (by decide) _ Sample.machine h⟩

/-- Whatever sources `cp` or `mv` accept, in whatever order: they arrive, each at its own place. -/
theorem run_delivers (x : Context) (manner : Transfer.Manner) {args operands : List String}
    {target : String} {m : Machine} {r : Reply}
    (hargs : (Shell.Options.ofArgs "" args).operands = operands ++ [target])
    (h : (run x (manner.command :: args) m).answer = .ok r) :
    ∃ root', (run x (manner.command :: args) m).machine = { m with root := root' } ∧
      Transfer.Delivered (x.call manner.command args) m manner (m.resolve target)
        (operands.map m.resolve) root' := by
  have hrun : run x (manner.command :: args) m =
      .ofTree m (Transfer.run manner (x.call manner.command args) m) := by
    cases manner <;> rfl
  rw [hrun] at h ⊢
  obtain ⟨root', hroot, hm⟩ := Outcome.ofTree_ok h
  exact ⟨root', hm, Transfer.delivered_of_run hargs hroot⟩

/-- A file and a file are moved to a directory, and the rest of the tree is looked up as before. -/
theorem run_delivers_two : ∃ root',
    (run Sample.context ["mv", "data.csv", "welcome.txt", "docs"] Sample.machine).machine =
        { Sample.machine with root := root' } ∧
      Transfer.Delivered (Sample.context.call "mv" ["data.csv", "welcome.txt", "docs"])
        Sample.machine .move ["home", "user", "docs"]
        [["home", "user", "data.csv"], ["home", "user", "welcome.txt"]] root' := by
  have hargs : (Shell.Options.ofArgs "" ["data.csv", "welcome.txt", "docs"]).operands =
      ["data.csv", "welcome.txt"] ++ ["docs"] := by decide
  have h : (run Sample.context ["mv", "data.csv", "welcome.txt", "docs"] Sample.machine).answer =
      .ok .empty := by decide +kernel
  exact run_delivers Sample.context .move hargs h

end Command

end PocketUnix
