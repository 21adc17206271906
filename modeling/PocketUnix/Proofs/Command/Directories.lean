import PocketUnix.Proofs.Command.Compression
import PocketUnix.Proofs.Command.Editing
import PocketUnix.Proofs.Command.Transfer

/-!
# Directories that stay

A directory is taken away by `mv`, by `rm -r` and by `userdel -r`. Of all other commands `ln` and
`gzip` and its kin are the only ones that put a node where a directory may stand, for they do not
look: the directory is lost then, and all that is in it.
-/

namespace PocketUnix

open PocketUnix.Action (Within Guarded within_pure)

namespace Node

/-- Whatever was a directory is one. -/
def Spares (root root' : Node) : Prop :=
  ∀ q, root.isDirectoryAt q = true → root'.isDirectoryAt q = true

instance : IsPreorder Node Spares where
  refl _ _ := id
  trans _ _ _ h h' q := h' q ∘ h q

variable {root root' n e : Node} {p parent : Path}

theorem spares_of_eq (h : ∀ q, root'.isDirectoryAt q = root.isDirectoryAt q) : root.Spares root' :=
  fun q hq => (h q).trans hq

theorem spares_insert (h : root.insert parent e = .ok root')
    (ht : root.isDirectoryAt (parent.child e.name) = false) : root.Spares root' := fun q hq => by
  rw [isDirectoryAt_congr (shapeAt_insert h (not_prefix_of_isDirectoryAt ht hq)), hq]

theorem spares_remove (h : root.remove p = .ok (n, root')) (hp : root.isDirectoryAt p = false) :
    root.Spares root' := fun q hq => by
  rw [isDirectoryAt_congr (shapeAt_remove h (not_prefix_of_isDirectoryAt hp hq)), hq]

theorem spares_updateAttributes (f : Attributes → Attributes) (root : Node) (p : Path) :
    root.Spares (root.modify (updateAttributes f) p) :=
  spares_of_eq fun q => isDirectoryAt_congr (shapeAt_modify_updateAttributes f root p q)

/-- A removal makes no directory. -/
theorem isDirectoryAt_remove (h : root.remove p = .ok (n, root')) {q : Path}
    (hq : root.isDirectoryAt q = false) : root'.isDirectoryAt q = false := by
  rcases shapeAt_remove_or h q with hgone | hsame
  · rw [Bool.eq_false_iff, Ne, isDirectoryAt_iff, hgone]
    simp
  · rw [isDirectoryAt_congr hsame, hq]

/-- What is put where no directory stands takes none away. -/
theorem spares_insertFor (command operand : String)
    (ht : root.isDirectoryAt (parent.child e.name) = false) :
    root.Spares ((insertFor command operand parent e).after root) := by
  cases hi : root.insert parent e with
  | ok root' =>
    rw [Action.after, insertFor_ok hi]
    exact spares_insert hi ht
  | error fault =>
    rw [Action.after, insertFor_error hi]
    exact refl_of Spares root

/-- None of the paths leads to a directory. -/
def Plain (paths : List Path) (root : Node) : Prop := ∀ p ∈ paths, root.isDirectoryAt p = false

variable {paths : List Path}

/-- What is no directory can be removed, for it never becomes one. -/
theorem guarded_remove (hp : p ∈ paths) (h : root.remove p = .ok (n, root')) :
    Guarded (Plain paths) Spares root root' := fun hplain =>
  ⟨fun q hq => isDirectoryAt_remove h (hplain q hq), spares_remove h (hplain p hp)⟩

end Node

open Node (Spares Plain)

theorem Call.spares_writeFile (c : Call) (m : Machine) (operand text : String) (appending : Bool) :
    Within Spares (c.writeFile m operand text appending) := by
  refine Action.within_of_result (fun root a root' h => ?_) fun root fault root' h => ?_
  · obtain ⟨compose, hstore⟩ := exists_store_of_writeFile h
    exact Node.spares_of_eq (Node.isDirectoryAt_store hstore)
  · rw [c.keepsOnFault_writeFile m operand text appending root fault root' h]
    exact refl_of Spares root

namespace Editing

variable (c : Call) (m : Machine)

/-- Directories are made where nothing stands, and under a root that is no directory there is none
to be spared. -/
theorem spares_mkdir : m.root.Spares ((mkdir c m).after m.root) := by
  unfold mkdir
  cases hplan : planMkdir (c.options "m") m with
  | error fault => exact refl_of Spares m.root
  | ok planned =>
    cases hroot : m.root.isDirectory with
    | true =>
      obtain ⟨root', hmade, hadded⟩ := (buildable_planMkdir hroot hplan).added
        (fresh_newDirectory m.user m.group c.now) fun _ => rfl
      rw [Action.after_bind, Action.ofExcept_ok]
      dsimp only
      rw [Action.after_bind, hmade]
      exact fun q hq => hadded.isDirectoryAt_of_old (fun _ => rfl) hq
    | false =>
      intro q hq
      have hnone := Node.not_prefix_of_isDirectoryAt (p := []) hroot hq
      exact absurd List.nil_prefix hnone

/-- A file is made where nothing stands, and what stands is only given another time. -/
theorem spares_touch : Within Spares (touch c m) := by
  refine Action.within_planned fun paths _ => ?_
  refine (Within.forM (fun p root => ?_) paths).bind fun _ => within_pure Reply.empty
  rw [after_touchOne]
  split
  · exact Node.spares_updateAttributes (fun a => { a with modified := c.now }) root p
  · next hfree =>
    by_cases hp : p = []
    · subst hp
      exact absurd rfl hfree
    · obtain ⟨parent, name, rfl⟩ := Path.exists_eq_child hp
      have hplain : root.isDirectoryAt (parent.child name) = false := by
        rw [Bool.eq_false_iff]
        exact fun hd => hfree (Node.contains_of_isDirectoryAt hd)
      simp only [create, Path.parent?_child, Path.name?_child]
      exact Node.spares_insertFor _ _ hplain

theorem spares_chmod : Within Spares (chmod c m) := by
  refine Action.within_planned fun updates _ => ?_
  exact (Within.forM (fun u root => Node.spares_updateAttributes _ root u.1) updates).bind fun _ =>
    within_pure _

theorem spares_chown (groupOnly : Bool) : Within Spares (chown groupOnly c m) := by
  refine Action.within_planned fun plan _ => ?_
  exact (Within.forM (fun p root => Node.spares_updateAttributes _ root p) plan.2).bind fun _ =>
    within_pure _

variable {c m}

/-- Without being told to go further, `rm` takes out what is no directory. -/
theorem spares_rm (hr : ((c.options "").has 'r' || (c.options "").has 'R') = false) :
    m.root.Spares ((rm c m).after m.root) := by
  unfold rm
  cases hplan : planRm (c.options "") m with
  | error fault => exact refl_of Spares m.root
  | ok doomed =>
    have hstep : ∀ p ∈ doomed, Within (Guarded (Plain doomed) Spares) (removeOne p) :=
      fun p hp => within_removeOne_of fun _ _ _ hrem => Node.guarded_remove hp hrem
    have hrun := (Action.within_forM_of_mem hstep).bind fun _ => within_pure Reply.empty
    exact (hrun m.root (not_directory_of_planRm hplan hr)).2

/-- What is shredded are files and links. -/
theorem spares_shred : m.root.Spares ((shred c m).after m.root) := by
  unfold shred
  cases hplan : planShred (c.options "n") m with
  | error fault => exact refl_of Spares m.root
  | ok plan =>
    obtain ⟨report, doomed⟩ := plan
    have hplain : m.root.Plain doomed := by
      intro p hp
      rw [Bool.eq_false_iff, Ne, Node.isDirectoryAt_iff, (shreddable_of_plan hplan).2 p hp]
      simp
    have hstep : ∀ p ∈ doomed, Within (Guarded (Plain doomed) Spares)
        (discard (Node.removeFor "shred" p.display p)) := fun p hp =>
      Within.discard (Node.within_removeFor_of fun _ _ _ h => Node.guarded_remove hp h)
    have hrun := (Action.within_forM_of_mem hstep).bind fun _ => within_pure (Reply.lines report)
    exact (hrun m.root hplain).2

/-- An accepted link is put into its directory. -/
theorem insert_of_links {parent : Path} {n : Node} (h : Links c m parent n) :
    m.root.insert parent n = .ok ((ln c m).after m.root) := by
  obtain ⟨target, link, rest, hoperands, hplan⟩ := h
  obtain ⟨root', hi⟩ := Node.exists_insert (planLn_ok hplan).1 n
  unfold ln
  dsimp only
  rw [hoperands]
  dsimp only
  rw [hplan, Action.after_bind, Action.ofExcept_ok]
  dsimp only
  rw [Action.after_bind_pure, Action.after, Node.insertFor_ok hi, hi]

/-- Without an accepted link nothing is done. -/
theorem after_ln_of_refused (h : ∀ parent n, ¬Links c m parent n) :
    (ln c m).after m.root = m.root := by
  unfold ln
  dsimp only
  split
  · next target link rest hoperands =>
    cases hplan : planLn c m (if (c.options "").has 's' then .symbolic else .hard)
        ((c.options "").has 'f') target link with
    | error fault => rfl
    | ok plan => exact absurd ⟨target, link, rest, hoperands, hplan⟩ (h plan.1 plan.2)
  · rfl

theorem spares_ln (h : ∀ parent n, Links c m parent n →
    m.root.isDirectoryAt (parent.child n.name) = false) :
    m.root.Spares ((ln c m).after m.root) := by
  by_cases hlinks : ∃ parent n, Links c m parent n
  · obtain ⟨parent, n, hn⟩ := hlinks
    exact Node.spares_insert (insert_of_links hn) (h parent n hn)
  · rw [after_ln_of_refused (by simpa using hlinks)]
    exact refl_of Spares m.root

/-- A link is no directory, whatever stood in its place. -/
theorem isDirectoryAt_link {parent : Path} {n : Node} (h : Links c m parent n) :
    ((ln c m).after m.root).isDirectoryAt (parent.child n.name) = false := by
  rw [Node.isDirectoryAt, Node.get?_insert_self (insert_of_links h)]
  obtain ⟨target, link, rest, -, hplan⟩ := h
  obtain ⟨-, name, hnode⟩ := planLn_ok hplan
  rcases linkNode_ok hnode with rfl | ⟨p, old, -, hd, rfl⟩
  · rfl
  · simpa [Node.renamed] using hd

end Editing

namespace Transfer

/-- No source lands where a directory stands. -/
theorem spares_copy (c : Call) (m : Machine) :
    m.root.Spares ((run .copy c m).after m.root) := by
  unfold run
  cases hplan : planRun .copy (c.options "") m with
  | error fault => exact refl_of Spares m.root
  | ok steps =>
    obtain ⟨sources, target, -, hsteps⟩ := planRun_ok hplan
    obtain ⟨rfl, hchecked, hd⟩ := plan_ok hsteps
    rw [List.length_map] at hd
    have hcompatible := hchecked.compatible hd
    obtain ⟨root', hmade, hcarried⟩ := run_plan c m .copy hcompatible
    have hspares : m.root.Spares root' := by
      intro q hq
      have htarget : ∀ s ∈ steps, ¬s.target <+: q := fun s hs =>
        Node.not_prefix_of_isDirectoryAt (hchecked.accepted s hs).target_plain hq
      by_cases habove : ∃ t ∈ steps, q <+: t.target
      · obtain ⟨t, ht, hqt⟩ := habove
        have hsource : ∀ s ∈ steps, ¬s.source <+: q := fun s hs hw =>
          (hcompatible.source_target s hs t ht).1 (hw.trans hqt)
        have hshape := hcarried.shape q fun s hs => ⟨htarget s hs, hsource s hs⟩
        rw [Node.isDirectoryAt_congr hshape, hq]
      · have hapart : ∀ s ∈ steps, Path.Apart s.target q := fun s hs =>
          ⟨htarget s hs, fun hqs => habove ⟨s, hs, hqs⟩⟩
        rw [Node.isDirectoryAt, hcarried.elsewhere q fun s hs => ⟨hapart s hs, by simp⟩]
        exact hq
    rw [Action.after_bind, Action.ofExcept_ok]
    dsimp only
    rw [Action.after_bind, hmade]
    exact hspares

end Transfer

namespace Archive

variable {command : ArchiveCommand} {c : Call} {m : Machine} {suffix : String}
  {direction : Direction} (hr : recompression? command c = some (suffix, direction))

include hr

/-- No directory gives way unless it stands at a new name. -/
theorem spares_recompress
    (h : ∀ plan, Renames command c m plan → ∀ r ∈ plan, m.root.isDirectoryAt r.target = false) :
    m.root.Spares ((recompress suffix direction c m).after m.root) := by
  unfold recompress
  cases hplan : planAll c m suffix direction (c.options "").operands with
  | error fault => exact refl_of Spares m.root
  | ok plan =>
    have hstanding := (planAll_ok hplan).standing (suffix_ne_empty hr)
    obtain ⟨root', hrun, hsame⟩ :=
      hstanding.runs (h plan ⟨suffix, direction, hr, hplan⟩) c
    rw [Action.after_bind, Action.ofExcept_ok]
    dsimp only
    rw [Action.after_bind, hrun]
    exact Node.spares_of_eq hsame

/-- If one does, it is not spared, however the command ends. -/
theorem lost_recompress {plan : List Renaming} (h : Renames command c m plan) {r : Renaming}
    (hmem : r ∈ plan) (hd : m.root.isDirectoryAt r.target = true) :
    ¬m.root.Spares ((recompress suffix direction c m).after m.root) := by
  obtain ⟨suffix', direction', hr', hplan⟩ := h
  cases hr.symm.trans hr'
  have hstanding := (planAll_ok hplan).standing (suffix_ne_empty hr)
  obtain ⟨q, hq, hlost⟩ := hstanding.lost ⟨r, hmem, hd⟩ c
  intro hspares
  have hroot := root_recompress hplan
  rw [Outcome.machine_ofTree] at hroot
  rw [← hroot, hspares q hq] at hlost
  cases hlost

end Archive

/-- A home is made where nothing stands. -/
theorem Accounts.spares_makeHome (name : String) (now : DateTime) :
    Within Spares (makeHome name now) := by
  refine Action.within_update fun root a root' h => ?_
  dsimp only at h
  split at h
  · cases h
    exact refl_of Spares root
  · next hfree =>
    split at h
    · next hi =>
      cases h
      refine Node.spares_insert hi ?_
      rw [Bool.eq_false_iff]
      exact fun hd => hfree (Node.contains_of_isDirectoryAt hd)
    · cases h

namespace Job

/-- The jobs that are to take directories away. -/
inductive Clears : Job → Prop
  | mv (c : Call) (m : Machine) : Clears ⟨.files .mv, c, m⟩
  | rm {c : Call} (h : ((c.options "").has 'r' || (c.options "").has 'R') = true) (m : Machine) :
    Clears ⟨.files .rm, c, m⟩
  | userdel {c : Call} (h : (c.options "").has 'r' = true) (m : Machine) :
    Clears ⟨.users .userdel, c, m⟩

/-- The jobs that put a node where a directory stands. -/
inductive Displaces : Job → Prop
  | link {c : Call} {m : Machine} {parent : Path} {n : Node} (h : Editing.Links c m parent n)
    (hd : m.root.isDirectoryAt (parent.child n.name) = true) : Displaces ⟨.files .ln, c, m⟩
  | renamed {command : ArchiveCommand} {c : Call} {m : Machine} {plan : List Archive.Renaming}
    {r : Archive.Renaming} (h : Archive.Renames command c m plan) (hr : r ∈ plan)
    (hd : m.root.isDirectoryAt r.target = true) : Displaces ⟨.archive command, c, m⟩

end Job

namespace Command

/-- Of the commands that do not run another one, those spare directories that neither clear nor
displace any. -/
theorem spares_runPlain {command : Command} {c : Call} {m : Machine}
    (hclears : ¬Job.Clears ⟨command, c, m⟩) (hdisplaces : ¬Job.Displaces ⟨command, c, m⟩) :
    m.root.Spares (runPlain command c m).machine.root := by
  refine related_runPlain (R := Spares) ?_ (c.spares_writeFile m) ?_ ?_ ?_
  · rintro k work rfl hwork
    cases k <;> cases hwork
    · exact Editing.spares_chown c m true m.root
    · exact Editing.spares_chmod c m m.root
    · exact Editing.spares_chown c m false m.root
    · exact Transfer.spares_copy c m
    · exact Editing.spares_ln fun parent n h => by
        rw [Bool.eq_false_iff]
        exact fun hd => hdisplaces (.link h hd)
    · exact Editing.spares_mkdir c m
    · exact absurd (.mv c m) hclears
    · exact Editing.spares_rm (by rw [Bool.eq_false_iff]; exact fun h => hclears (.rm h m))
    · exact Editing.spares_shred
    · exact Editing.spares_touch c m m.root
  · rintro k suffix direction rfl h
    refine Archive.spares_recompress h fun plan hplan r hr => ?_
    rw [Bool.eq_false_iff]
    exact fun hd => hdisplaces (.renamed hplan hr hd)
  · exact fun _ name _ => Accounts.spares_makeHome name c.now
  · rintro rfl name - hr
    exact absurd (.userdel hr m) hclears

/-- What a job puts in the place of a directory is not one. -/
theorem not_spares_of_displaces {j : Job} (h : j.Displaces) :
    ¬j.machine.root.Spares j.outcome.machine.root := by
  cases h with
  | @link c m parent n h hd =>
    intro hspares
    have hroot : (runPlain (.files .ln) c m).machine.root = (Editing.ln c m).after m.root := by
      rw [runPlain, Files.run, Outcome.machine_ofTree]
    have hstill := hspares _ hd
    rw [Job.outcome, hroot, Editing.isDirectoryAt_link h] at hstill
    cases hstill
  | @renamed k c m plan r h hr hd =>
    obtain ⟨suffix, direction, hk, -⟩ := id h
    have hroot : (runPlain (.archive k) c m).machine.root =
        (Archive.recompress suffix direction c m).after m.root := by
      rw [runPlain, Archive.run_of_recompression hk, Outcome.machine_ofTree]
    rw [Job.outcome, hroot]
    exact Archive.lost_recompress hk h hr hd

/-- Directories stay directories, unless they are to be taken away, just if no link is put in the
place of one and no file takes the name of one. -/
theorem run_sparesDirectories (x : Context) (words : List String) (m : Machine)
    (hclears : ∀ j, job? x words m = some j → ¬j.Clears) :
    (∀ p, m.root.isDirectoryAt p = true →
        (run x words m).machine.root.isDirectoryAt p = true) ↔
      ∀ j, job? x words m = some j → ¬j.Displaces := by
  obtain ⟨user, hrun⟩ := exists_user_run x words m
  rw [hrun]
  cases hj : job? x words m with
  | none => simp [Machine.withUser]
  | some j =>
    have hiff : m.root.Spares j.outcome.machine.root ↔ ¬j.Displaces := by
      rw [← root_of_job hj]
      exact ⟨fun hspares h => not_spares_of_displaces h hspares,
        spares_runPlain (hclears j hj)⟩
    simp only [Option.some.injEq, forall_eq']
    exact hiff

/-- A directory of the name that a compressed file takes does not stay. -/
theorem run_sparesDirectories_taken :
    ¬∀ p, takenMachine.root.isDirectoryAt p = true →
      (run Sample.context ["gzip", "data.csv"] takenMachine).machine.root.isDirectoryAt p = true := by
  have hjob : job? Sample.context ["gzip", "data.csv"] takenMachine =
      some ⟨.archive .gzip, Sample.context.call "gzip" ["data.csv"], takenMachine⟩ :=
    job?_plain rfl (by simp) (by simp)
  have hclears : ∀ j, job? Sample.context ["gzip", "data.csv"] takenMachine = some j →
      ¬j.Clears := by
    intro j hj h
    cases hjob.symm.trans hj
    cases h
  have hplan : Archive.Renames .gzip (Sample.context.call "gzip" ["data.csv"]) takenMachine
      [⟨"data.csv", ["home", "user", "data.csv"], ["home", "user"], "data.csv.gz"⟩] :=
    ⟨".gz", .compress, by decide +kernel, by decide +kernel⟩
  intro h
  exact (run_sparesDirectories Sample.context ["gzip", "data.csv"] takenMachine hclears).mp h _ hjob
    (.renamed hplan (List.mem_singleton_self _) (by decide +kernel))

end Command

end PocketUnix
