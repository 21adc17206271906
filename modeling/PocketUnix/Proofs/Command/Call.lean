import PocketUnix.Command.Call
import PocketUnix.Proofs.Action
import PocketUnix.Proofs.Tree.Change

/-!
# What calls leave behind

The single changes that commands are put together from: each is made as a whole or not at all.
-/

namespace PocketUnix

open PocketUnix.Action (KeepsOnFault Within)

/-- A command that fails leaves the machine as it was. -/
def Outcome.KeepsOnFault (o : Outcome) (m : Machine) : Prop :=
  ∀ fault, o.answer = .error fault → o.machine = m

namespace Outcome

theorem keepsOnFault_fail (m : Machine) (fault : Fault) : (fail m fault).KeepsOnFault m :=
  fun _ _ => rfl

/-- An outcome is left as its action leaves it. -/
theorem keepsOnFault_ofAction {m : Machine} {action : Action Machine Reply}
    (h : Action.KeepsOnFault action m) : (ofAction m action).KeepsOnFault m := by
  intro fault hf
  unfold ofAction at hf ⊢
  cases ha : action m with
  | ok r m' => simp only [ha] at hf; cases hf
  | error e m' => exact h e m' ha

end Outcome

namespace Action

variable {α : Type}

/-- A machine is kept if its tree is. -/
theorem keepsOnFault_onTree {action : Action Node α} {m : Machine}
    (h : KeepsOnFault action m.root) : KeepsOnFault action.onTree m := by
  intro fault m' hf
  unfold onTree at hf
  cases ha : action m.root with
  | ok a root => simp only [ha] at hf; cases hf
  | error e root =>
    simp only [ha] at hf
    cases hf
    rw [h fault root ha]

theorem Succeeds.onTree {action : Action Node α} {m : Machine} (h : Succeeds action m.root) :
    Succeeds action.onTree m := by
  obtain ⟨a, root, ha⟩ := h
  exact ⟨a, { m with root }, by simp only [Action.onTree, ha]⟩

/-- Work on the system tables leaves the tree as it is. -/
theorem root_of_onSystem {action : Action System α} {m m' : Machine} {a : α}
    (h : action.onSystem m = .ok a m') : m'.root = m.root := by
  unfold onSystem at h
  cases ha : action m.system with
  | error fault system => simp only [ha] at h; cases h
  | ok b system =>
    simp only [ha] at h
    cases h
    rfl

/-- And if its system tables are. -/
theorem keepsOnFault_onSystem {action : Action System α} {m : Machine}
    (h : KeepsOnFault action m.system) : KeepsOnFault action.onSystem m := by
  intro fault m' hf
  unfold onSystem at hf
  cases ha : action m.system with
  | ok a system => simp only [ha] at hf; cases hf
  | error e system =>
    simp only [ha] at hf
    cases hf
    rw [h fault system ha]

end Action

theorem Outcome.keepsOnFault_ofTree {m : Machine} {action : TreeAction}
    (h : Action.KeepsOnFault action m.root) : (ofTree m action).KeepsOnFault m :=
  keepsOnFault_ofAction (Action.keepsOnFault_onTree h)

theorem Outcome.keepsOnFault_ofSystem {m : Machine} {action : SystemAction}
    (h : Action.KeepsOnFault action m.system) : (ofSystem m action).KeepsOnFault m :=
  keepsOnFault_ofAction (Action.keepsOnFault_onSystem h)

/-- Work on the tree that succeeds changes nothing but the tree. -/
theorem Outcome.ofTree_ok {m : Machine} {action : TreeAction} {r : Reply}
    (h : (ofTree m action).answer = .ok r) :
    ∃ root, action m.root = .ok r root ∧ (ofTree m action).machine = { m with root } := by
  unfold ofTree ofAction Action.onTree at h ⊢
  cases ha : action m.root with
  | error fault root => simp only [ha] at h; cases h
  | ok a root =>
    simp only [ha] at h ⊢
    cases h
    exact ⟨root, rfl, rfl⟩

theorem Outcome.ofTree_of_ok {m : Machine} {action : TreeAction} {r : Reply} {root : Node}
    (h : action m.root = .ok r root) : ofTree m action = ⟨.ok r, { m with root }⟩ := by
  simp only [ofTree, ofAction, Action.onTree, h]

theorem Outcome.ofTree_of_error {m : Machine} {action : TreeAction} {fault : Fault} {root : Node}
    (h : action m.root = .error fault root) :
    ofTree m action = ⟨.error fault, { m with root }⟩ := by
  simp only [ofTree, ofAction, Action.onTree, h]

/-- Work on the system tables that fails may have changed nothing but them. -/
theorem Outcome.ofSystem_error {m : Machine} {action : SystemAction} {fault : Fault}
    (h : (ofSystem m action).answer = .error fault) : ∃ system,
      action m.system = .error fault system ∧
        (ofSystem m action).machine = { m with system } := by
  unfold ofSystem ofAction Action.onSystem at h ⊢
  cases ha : action m.system with
  | ok a system => simp only [ha] at h; cases h
  | error e system =>
    simp only [ha] at h ⊢
    cases h
    exact ⟨system, rfl, rfl⟩

namespace Node

theorem insertFor_ok {root root' : Node} {parent : Path} {entry : Node}
    (h : root.insert parent entry = .ok root') (command operand : String) :
    insertFor command operand parent entry root = .ok () root' :=
  Action.update_ok (by simp only [h])

theorem insertFor_error {root : Node} {parent : Path} {entry : Node} {fault : TreeFault}
    (h : root.insert parent entry = .error fault) (command operand : String) :
    insertFor command operand parent entry root =
      .error (.ofTree command operand fault) root :=
  Action.update_error (by simp only [h])

theorem removeFor_ok {root root' n : Node} {p : Path} (h : root.remove p = .ok (n, root'))
    (command operand : String) : removeFor command operand p root = .ok n root' :=
  Action.update_ok (by simp only [h, Except.mapError])

theorem removeFor_error {root : Node} {p : Path} {fault : TreeFault}
    (h : root.remove p = .error fault) (command operand : String) :
    removeFor command operand p root = .error (.ofTree command operand fault) root :=
  Action.update_error (by simp only [h, Except.mapError])

section Within

variable {R : Node → Node → Prop} [IsPreorder Node R] {command operand : String}

/-- Putting a node in for a command is putting it in, but for the fault that is told. -/
theorem within_insertFor_of {parent : Path} {e : Node}
    (h : ∀ root root', root.insert parent e = .ok root' → R root root') :
    Within R (insertFor command operand parent e) := by
  refine Action.within_update fun root a root' hi => ?_
  split at hi
  · next hroot =>
    cases hi
    exact h root root' hroot
  · cases hi

/-- And removing one is the same in the same way. -/
theorem within_removeFor_of {p : Path}
    (h : ∀ root n root', root.remove p = .ok (n, root') → R root root') :
    Within R (removeFor command operand p) := by
  refine Action.within_update fun root n root' hr => ?_
  cases hremove : root.remove p with
  | ok r =>
    rw [hremove] at hr
    cases hr
    exact h root n root' hremove
  | error fault =>
    rw [hremove] at hr
    cases hr

end Within

theorem keepsOnFault_insertFor (command operand : String) (parent : Path) (entry root : Node) :
    KeepsOnFault (insertFor command operand parent entry) root :=
  Action.keepsOnFault_update _ root

end Node

namespace Call

theorem keepsOnFault_writeFile (c : Call) (m : Machine) (operand text : String)
    (appending : Bool) (root : Node) : KeepsOnFault (c.writeFile m operand text appending) root :=
  Action.keepsOnFault_update _ root

/-- What is written is stored, in the one or the other way. -/
theorem exists_store_of_writeFile {c : Call} {m : Machine} {operand text : String}
    {appending : Bool} {root root' : Node}
    (h : c.writeFile m operand text appending root = .ok () root') :
    ∃ compose, root.store (m.resolve operand) m.user m.group c.now compose = .ok root' := by
  cases appending with
  | true =>
    cases hs : root.append (m.resolve operand) m.user m.group c.now text with
    | error fault => simp [writeFile, Action.update, hs] at h
    | ok rest =>
      simp only [writeFile, Action.update, hs, if_true] at h
      cases h
      exact ⟨_, hs⟩
  | false =>
    cases hs : root.write (m.resolve operand) m.user m.group c.now text with
    | error fault => simp [writeFile, Action.update, hs] at h
    | ok rest =>
      simp only [writeFile, Action.update, hs, Bool.false_eq_true, if_false] at h
      cases h
      exact ⟨_, hs⟩

/-- Writing to a place for files cannot fail, and leaves the directories as they are. -/
theorem writeFile_of_parentDirectory (c : Call) {m : Machine} {operand : String} {root : Node}
    {parent : Path} (hp : root.parentDirectory (m.resolve operand) = .ok parent)
    (hd : root.isDirectoryAt (m.resolve operand) = false) (text : String) (appending : Bool) :
    ∃ root', c.writeFile m operand text appending root = .ok () root' ∧
      ∀ q, root'.isDirectoryAt q = root.isDirectoryAt q := by
  cases appending with
  | false =>
    obtain ⟨root', h, hs⟩ : ∃ root', root.write (m.resolve operand) m.user m.group c.now text =
        .ok root' ∧ ∀ q, root'.isDirectoryAt q = root.isDirectoryAt q :=
      Node.store_of_parentDirectory hp hd m.user m.group c.now _
    refine ⟨root', ?_, hs⟩
    unfold writeFile
    exact Action.update_ok (by simp [h])
  | true =>
    obtain ⟨root', h, hs⟩ : ∃ root', root.append (m.resolve operand) m.user m.group c.now text =
        .ok root' ∧ ∀ q, root'.isDirectoryAt q = root.isDirectoryAt q :=
      Node.store_of_parentDirectory hp hd m.user m.group c.now _
    refine ⟨root', ?_, hs⟩
    unfold writeFile
    exact Action.update_ok (by simp [h])

end Call

end PocketUnix
