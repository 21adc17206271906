import PocketUnix.Command.Run
import PocketUnix.Proofs.Command.Editing
import PocketUnix.Proofs.Session.SoundSessions
import PocketUnix.Proofs.Tree.Removed

/-!
# What `rm` takes out

All operands are looked at before the first removal. So only the paths that are named and the
letters that are given make a difference, but not the order of the operands, nor that one is named
twice or has gone with another one.
-/

namespace PocketUnix.Editing

variable {c : Call} {m : Machine} {o : Shell.Options} {root root' : Node} {p : Path}
  {doomed : List Path}

/-- A removal takes one path out, or nothing if nothing stands there. -/
theorem removed_of_removeOne (h : removeOne p root = .ok () root') : root.Removed [p] root' := by
  unfold removeOne at h
  cases hremove : root.remove p with
  | ok r =>
    rw [hremove] at h
    cases h
    exact Node.removed_of_remove hremove
  | error fault =>
    rw [hremove] at h
    cases fault with
    | missing =>
      cases h
      exact Node.removed_of_missing (Node.not_contains_of_remove hremove)
    | _ => cases h

/-- Removals one after the other take out what any of them does. -/
theorem removed_of_forM (h : doomed.forM removeOne root = .ok () root') :
    root.Removed doomed root' := by
  induction doomed generalizing root with
  | nil =>
    cases h
    exact Node.removed_nil root'
  | cons p rest ih =>
    rw [Action.forM_cons] at h
    cases hone : removeOne p root with
    | error fault root'' =>
      rw [hone] at h
      cases h
    | ok u root'' =>
      rw [hone] at h
      exact (removed_of_removeOne hone).append (ih h)

theorem within_sorted_removeOne (p : Path) :
    Action.Within (Action.Keeping Node.Sorted) (removeOne p) :=
  within_removeOne_of fun _ _ _ hremove hsorted => hsorted.remove hremove

/-- Once its operands are accepted, `rm` takes out those that are there. -/
theorem rm_of_planRm (h : planRm (c.options "") m = .ok doomed) :
    ∃ root', rm c m m.root = .ok .empty root' ∧ m.root.Removed doomed root' ∧
      (m.root.Sorted → root'.Sorted) := by
  obtain ⟨⟨⟩, root', hrun⟩ := succeeds_forM_removeOne (removable_of_planRm h)
  have hsorted := Action.Within.forM within_sorted_removeOne doomed m.root
  rw [Action.after, hrun] at hsorted
  refine ⟨root', ?_, removed_of_forM hrun, hsorted⟩
  simp only [rm, h, Action.bind_apply, Action.ofExcept_ok, hrun]
  rfl

theorem rm_of_planRm_error {fault : Fault} (h : planRm (c.options "") m = .error fault) :
    rm c m m.root = .error fault m.root := by
  simp only [rm, h, Action.bind_apply, Action.ofExcept_error]

theorem Accepted.mono {recursive recursive' force force' : Bool}
    (h : Accepted root recursive force p) (hrecursive : recursive = true → recursive' = true)
    (hforce : force = true → force' = true) : Accepted root recursive' force' p where
  ne_root := h.ne_root
  directory := hrecursive ∘ h.directory
  missing := hforce ∘ h.missing

/-- The second options name the same paths as the first ones, and allow whatever those do. -/
structure Repeats (m : Machine) (o o' : Shell.Options) : Prop where
  recursive : (o.has 'r' || o.has 'R') = true → (o'.has 'r' || o'.has 'R') = true
  force : o.has 'f' = true → o'.has 'f' = true
  named : ∀ p, p ∈ named o m ↔ p ∈ named o' m

/-- Options that repeat others are accepted with them, and the same paths are to be removed. -/
theorem Repeats.planRm {o' : Shell.Options} (h : Repeats m o o')
    (hplan : planRm o m = .ok doomed) :
    ∃ doomed', Editing.planRm o' m = .ok doomed' ∧ ∀ p, p ∈ doomed ↔ p ∈ doomed' := by
  obtain ⟨hempty, haccepted, rfl⟩ := planRm_eq_ok_iff.mp hplan
  refine ⟨_, planRm_eq_ok_iff.mpr ⟨fun hnone => ?_, fun p hp => ?_, rfl⟩, fun p => ?_⟩
  · refine h.force (hempty (List.eq_nil_iff_forall_not_mem.mpr fun p hp => ?_))
    rw [h.named, hnone] at hp
    cases hp
  · exact (haccepted p ((h.named p).mpr hp)).mono h.recursive h.force
  · simp only [List.mem_filter, h.named]

end Editing

namespace Command

open Editing (named Repeats)

/-- When `rm` succeeds, what it names is taken out and nothing else, a directory only if it is told
to go further and the root never. All calls that name the same paths and allow as much end alike. -/
theorem removed_by_rm {x : Context} {args : List String} {m : Machine} {r : Reply}
    (hsorted : m.root.Sorted) (h : (run x ("rm" :: args) m).answer = .ok r) :
    let o := Shell.Options.ofArgs "" args
    ∃ root', (run x ("rm" :: args) m).machine = { m with root := root' } ∧
      m.root.Removed ((named o m).filter m.root.contains) root' ∧
      ([] ∉ named o m ∧ root'.bare = m.root.bare) ∧
      (o.has 'r' = false → o.has 'R' = false →
        ∀ q, root'.isDirectoryAt q = m.root.isDirectoryAt q) ∧
      ∀ args', Repeats m o (.ofArgs "" args') →
        run x ("rm" :: args') m = run x ("rm" :: args) m := by
  intro o
  have hrun : ∀ args, run x ("rm" :: args) m = .ofTree m (Editing.rm (x.call "rm" args) m) :=
    fun _ => rfl
  cases hplan : Editing.planRm o m with
  | error fault =>
    have hrm := Editing.rm_of_planRm_error (c := x.call "rm" args) hplan
    rw [hrun, Outcome.ofTree_of_error hrm] at h
    cases h
  | ok doomed =>
    obtain ⟨root', hrm, hremoved, hkeeps⟩ :=
      Editing.rm_of_planRm (c := x.call "rm" args) hplan
    obtain ⟨-, haccepted, rfl⟩ := Editing.planRm_eq_ok_iff.mp hplan
    have hroot : [] ∉ named o m := fun hmem => (haccepted [] hmem).ne_root rfl
    have hbare := hremoved.bare fun hmem => hroot (List.mem_filter.mp hmem).1
    refine ⟨root', ?_, hremoved, ⟨hroot, hbare⟩, fun hr hR => ?_, fun args' hrepeats => ?_⟩
    · rw [hrun, Outcome.ofTree_of_ok hrm]
    · have hplain := Editing.not_directory_of_planRm hplan (by rw [hr, hR]; rfl)
      exact hremoved.isDirectoryAt hplain
    · obtain ⟨doomed', hplan', hmem⟩ := hrepeats.planRm hplan
      obtain ⟨root'', hrm', hremoved', hkeeps'⟩ :=
        Editing.rm_of_planRm (c := x.call "rm" args') hplan'
      have hroots : root' = root'' :=
        (hremoved.congr hmem).unique hremoved' (hkeeps hsorted) (hkeeps' hsorted)
      rw [hrun, hrun, Outcome.ofTree_of_ok hrm, Outcome.ofTree_of_ok hrm', hroots]

/-- A directory that is named behind a file of its own, and again with other letters and in another
order. -/
theorem removed_by_rm_twice_over :
    Sample.machine.root.Sorted ∧
      (∃ root', Sample.machine.root.Removed
          [["home", "user", "docs", "todo.list"], ["home", "user", "docs"]] root' ∧
        (run Sample.context ["rm", "-rf", "docs/todo.list", "docs", "none"]
          Sample.machine).machine = { Sample.machine with root := root' }) ∧
      run Sample.context ["rm", "docs", "-f", "none", "./docs", "-R", "docs/todo.list", "docs"]
          Sample.machine =
        run Sample.context ["rm", "-rf", "docs/todo.list", "docs", "none"] Sample.machine := by
  have hpaths : named (.ofArgs "" ["-rf", "docs/todo.list", "docs", "none"]) Sample.machine =
      [["home", "user", "docs", "todo.list"], ["home", "user", "docs"],
        ["home", "user", "none"]] := by decide +kernel
  have hpaths' : named (.ofArgs "" ["docs", "-f", "none", "./docs", "-R", "docs/todo.list", "docs"])
      Sample.machine =
        [["home", "user", "docs"], ["home", "user", "none"], ["home", "user", "docs"],
          ["home", "user", "docs", "todo.list"], ["home", "user", "docs"]] := by decide +kernel
  have hrepeats : Repeats Sample.machine
      (.ofArgs "" ["-rf", "docs/todo.list", "docs", "none"])
      (.ofArgs "" ["docs", "-f", "none", "./docs", "-R", "docs/todo.list", "docs"]) := by
    refine ⟨by decide, by decide, fun p => ?_⟩
    rw [hpaths, hpaths']
    simp only [List.mem_cons, List.not_mem_nil]
    tauto
  have hsound : Node.Sound Path.IsName Sample.machine.root := Seed.sound_root _ "terminus"
  have hsorted : Sample.machine.root.Sorted := hsound.wellFormed.inOrder.sorted
  have hanswer : (run Sample.context ["rm", "-rf", "docs/todo.list", "docs", "none"]
      Sample.machine).answer = .ok .empty := by decide +kernel
  obtain ⟨root', hmachine, hremoved, -, -, hall⟩ := removed_by_rm hsorted hanswer
  refine ⟨hsorted, ⟨root', ?_, hmachine⟩, hall _ hrepeats⟩
  have hthere : [["home", "user", "docs", "todo.list"], ["home", "user", "docs"],
      ["home", "user", "none"]].filter Sample.machine.root.contains =
        [["home", "user", "docs", "todo.list"], ["home", "user", "docs"]] := by decide +kernel
  rwa [hpaths, hthere] at hremoved

end Command

end PocketUnix
