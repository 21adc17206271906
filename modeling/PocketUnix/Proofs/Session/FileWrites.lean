import PocketUnix.Proofs.Command.Call
import PocketUnix.Proofs.Editor.Commands
import PocketUnix.Proofs.Session.SoundSessions
import PocketUnix.Proofs.Tree.FileWrites
import PocketUnix.Proofs.Tree.Sorted

/-!
# Files that are written by commands and by the editor

Both write in the same way. What is refused leaves the whole machine as it was.
-/

namespace PocketUnix

theorem Call.writeFile_of_unwritable (c : Call) {m : Machine} {operand : String} {root : Node}
    {fault : TreeFault} (h : root.Unwritable (m.resolve operand) fault) (text : String) :
    c.writeFile m operand text false root = .error (c.writeFault operand fault) root := by
  have hwrite : root.write (m.resolve operand) m.user m.group c.now text = .error fault :=
    h.store _ _ _ _
  unfold writeFile
  exact Action.update_error (by simp [hwrite])

theorem Editor.save_of_unwritable (e : Editor) {m : Machine} {p : Path} {fault : TreeFault}
    (h : m.root.Unwritable p fault) (action : SaveAction) (now : DateTime) :
    e.save p action now m = e.refuse .cannotWrite m :=
  save_error (h.store _ _ _ _) action

namespace Node

variable {root : Node}

/-- What is written is read by all, and is seen nowhere but on the way to it. A write is refused in
those places alone that hold no file, and then neither commands nor the editor change anything. A
node that is put under a free name and taken out again leaves no trace either. -/
theorem written_or_unchanged (hroot : root.InOrder) (p : Path) (owner group : String)
    (now : DateTime) (content : String) :
    (∀ root', root.write p owner group now content = .ok root' →
        root.Written p owner group now content root') ∧
      (∀ fault, root.write p owner group now content = .error fault ↔ root.Unwritable p fault) ∧
      (∀ (c : Call) (m : Machine) operand fault, root.Unwritable (m.resolve operand) fault →
        c.writeFile m operand content false root = .error (c.writeFault operand fault) root) ∧
      (∀ (e : Editor) (m : Machine) action fault, m.root.Unwritable p fault →
        e.save p action now m = e.refuse .cannotWrite m ∧
          (e.save p action now m).machine = m) ∧
      ∀ parent n, root.isDirectoryAt parent = true → root.contains (parent.child n.name) = false →
        ∃ root', root.insert parent n = .ok root' ∧
          root'.remove (parent.child n.name) = .ok (n, root) := by
  refine ⟨fun root' h => written_of_write h, fun fault => store_eq_error_iff,
    fun c m operand fault h => c.writeFile_of_unwritable h content,
    fun e m action fault h => ?_, fun parent n => hroot.sorted.remove_insert⟩
  rw [e.save_of_unwritable h]
  exact ⟨rfl, rfl⟩

/-- A file of the user that is written for another one, a directory that is not, and a name that is
free. -/
theorem written_or_unchanged_at_home :
    let root := Sample.machine.root
    root.InOrder ∧
      (∃ root', root.write ["home", "user", "data.csv"] "root" "root" Sample.time "a" = .ok root' ∧
        root.Written ["home", "user", "data.csv"] "root" "root" Sample.time "a" root') ∧
      root.write ["home", "user", "docs"] "root" "root" Sample.time "a" = .error .isADirectory ∧
      ∃ root', root.insert ["home"] (.newDirectory "new" "user" "user" Sample.time) = .ok root' ∧
        root'.remove ["home", "new"] =
          .ok (.newDirectory "new" "user" "user" Sample.time, root) := by
  intro root
  have hsound : Sound Path.IsName root := Seed.sound_root _ "terminus"
  have hroot : root.InOrder := hsound.wellFormed.inOrder
  obtain ⟨hwritten, -, -, -, hback⟩ := written_or_unchanged hroot ["home", "user", "data.csv"]
    "root" "root" Sample.time "a"
  obtain ⟨-, hrefused, -⟩ := written_or_unchanged hroot ["home", "user", "docs"]
    "root" "root" Sample.time "a"
  refine ⟨hroot, ?_, ?_, ?_⟩
  · have hstorable : root.Storable ["home", "user", "data.csv"] :=
      ⟨["home", "user"], "data.csv", rfl, by decide +kernel, by decide +kernel⟩
    obtain ⟨root', hwrite⟩ := hstorable.exists_store "root" "root" Sample.time fun _ => "a"
    exact ⟨root', hwrite, hwritten root' hwrite⟩
  · have hdirectory : root.isDirectoryAt (Path.child ["home", "user"] "docs") = true := by
      decide +kernel
    exact (hrefused _).mpr (.isADirectory hdirectory)
  · exact hback ["home"] (.newDirectory "new" "user" "user" Sample.time) (by decide +kernel)
      (by decide +kernel)

end Node

end PocketUnix
