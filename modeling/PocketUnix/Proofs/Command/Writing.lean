import PocketUnix.Command.Archive
import PocketUnix.Command.Writing
import PocketUnix.Proofs.Command.Call
import PocketUnix.Proofs.Plan

/-!
# Text that is written or not

`echo`, `sed`, the downloads and the archives write at most one file, as the last thing they do.
`tee` writes many, but only where it has seen that all of them can be written.
-/

namespace PocketUnix

open PocketUnix.Action (KeepsOnFault)

namespace Writing

theorem keepsOnFault_echo (c : Call) (m : Machine) : KeepsOnFault (echo c m) m.root := by
  refine Action.keepsOnFault_ofExcept_bind fun plan _ => ?_
  obtain ⟨words, redirection⟩ := plan
  cases redirection with
  | none => exact (Action.succeeds_pure _ _).keepsOnFault
  | some r => exact KeepsOnFault.bind_pure (c.keepsOnFault_writeFile m _ _ _ _) fun _ => Reply.empty

/-- A file may be written here: no directory stands here, but one stands in front. -/
def Writable (root : Node) (p : Path) : Prop :=
  root.isDirectoryAt p = false ∧ ∃ parent, root.parentDirectory p = .ok parent

/-- What `tee` has checked can be written. -/
theorem writable_of_checkTee {m : Machine} {operand : String} (h : checkTee m operand = .ok ()) :
    Writable m.root (m.resolve operand) := by
  unfold checkTee at h
  dsimp only at h
  split at h
  · cases h
  · next hd =>
    cases hp : m.root.parentDirectory (m.resolve operand) with
    | ok parent => exact ⟨by simpa using hd, parent, hp⟩
    | error fault => simp [hp] at h

/-- Where the directories are as they were, a place for a file is still one. -/
theorem Writable.congr {root root' : Node} {p : Path} (h : Writable root p)
    (hs : ∀ q, root'.isDirectoryAt q = root.isDirectoryAt q) : Writable root' p := by
  obtain ⟨hd, parent, hp⟩ := h
  obtain ⟨hchild, hparent⟩ := Node.parentDirectory_eq_ok_iff.mp hp
  refine ⟨by rw [hs, hd], parent, Node.parentDirectory_eq_ok_iff.mpr ⟨hchild, ?_⟩⟩
  rw [hs, hparent]

/-- All operands have been checked before the first is written, and writing one leaves room for the
others. -/
theorem keepsOnFault_tee (c : Call) (m : Machine) : KeepsOnFault (tee c m) m.root := by
  refine Action.keepsOnFault_planned fun _ hplan => ?_
  have hchecked : ∀ operand ∈ (c.options "").operands, Writable m.root (m.resolve operand) :=
    fun operand h => writable_of_checkTee (Plan.forM_eq_ok hplan h)
  refine (Action.succeeds_forM_of_invariant
    (I := fun rest root => ∀ operand ∈ rest, Writable root (m.resolve operand))
    (fun operand rest root hI => ?_) (c.options "").operands m.root hchecked).keepsOnFault
  obtain ⟨hd, parent, hp⟩ := hI operand List.mem_cons_self
  obtain ⟨root', hroot, hs⟩ := c.writeFile_of_parentDirectory hp hd c.stdin ((c.options "").has 'a')
  exact ⟨root', hroot, fun other h => (hI other (List.mem_cons_of_mem operand h)).congr hs⟩

/-- The text is read and changed before the file is written. -/
theorem keepsOnFault_sed (c : Call) (m : Machine) : KeepsOnFault (sed c m) m.root := by
  refine Action.keepsOnFault_ofExcept_bind fun plan _ => ?_
  obtain ⟨result, file⟩ := plan
  cases file with
  | none => exact (Action.succeeds_pure _ _).keepsOnFault
  | some file =>
    exact KeepsOnFault.bind_pure (c.keepsOnFault_writeFile m _ _ _ _) fun _ => Reply.empty

theorem keepsOnFault_download (c : Call) (m : Machine) : KeepsOnFault (download c m) m.root := by
  unfold download
  dsimp only
  split
  · exact Action.keepsOnFault_fail _ _
  · exact KeepsOnFault.bind_pure (c.keepsOnFault_writeFile m _ _ _ _) fun _ => Reply.output _

end Writing

namespace Archive

theorem keepsOnFault_pack (c : Call) (m : Machine) (name : String) (sources : List String) :
    KeepsOnFault (pack c m name sources) m.root :=
  Action.keepsOnFault_ofExcept_bind fun _ _ => c.keepsOnFault_writeFile m name body false m.root

/-- An archive is written when all that goes into it is known. -/
theorem keepsOnFault_tar (c : Call) (m : Machine) : KeepsOnFault (tar c m) m.root := by
  unfold tar
  dsimp only
  split
  · exact Action.keepsOnFault_fail _ _
  · split
    · exact (keepsOnFault_pack c m _ _).bind fun _ _ _ => by
        split <;> exact Action.succeeds_pure _ _
    · split
      · exact (Action.succeeds_pure _ _).keepsOnFault
      · exact Action.keepsOnFault_fail _ _

theorem keepsOnFault_zip (c : Call) (m : Machine) : KeepsOnFault (zip c m) m.root :=
  KeepsOnFault.bind_pure (keepsOnFault_pack c m _ _) fun _ => Reply.lines _

theorem keepsOnFault_jar (c : Call) (m : Machine) : KeepsOnFault (jar c m) m.root := by
  unfold jar
  split
  · exact (Action.succeeds_pure _ _).keepsOnFault
  · exact KeepsOnFault.bind_pure (keepsOnFault_pack c m _ _) fun _ => Reply.empty

end Archive

end PocketUnix
