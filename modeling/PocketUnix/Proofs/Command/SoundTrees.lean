import PocketUnix.Proofs.Command.Editing
import PocketUnix.Proofs.Command.Job
import PocketUnix.Proofs.Command.Transfer
import PocketUnix.Proofs.Command.Writing
import PocketUnix.Proofs.Tree.Names
import PocketUnix.Proofs.Tree.WellFormed

/-!
# Work that keeps trees sound

Whatever a command does to a sound tree, the tree stays sound. Where names have to satisfy a
condition, this takes that the names on the paths that the command reads satisfy it, and of `ln`,
`gzip` and its kin and `useradd` that the names do that they make up.
-/

namespace PocketUnix

open PocketUnix.Action (Within Keeping)
open PocketUnix.Node (Sound WellFormed)

/-- The names on all paths that the machine reads from texts satisfy a condition. -/
def Machine.Reads (P : String → Prop) (m : Machine) : Prop := ∀ text, (m.resolve text).Named P

variable {P : String → Prop}

namespace Node

variable {command operand : String} {e : Node}

theorem within_insertFor (he : WellFormed P e) (hname : P e.name) (parent : Path) :
    Within (Keeping (Sound P)) (insertFor command operand parent e) :=
  within_insertFor_of fun _ _ h hs => hs.insert he hname h

theorem within_removeFor (p : Path) :
    Within (Keeping (Sound P)) (removeFor command operand p) :=
  within_removeFor_of fun _ _ _ h hs => (hs.remove h).2

/-- A node is taken out and put back in elsewhere, in another guise. -/
theorem within_relocate {g : Node → Node} (hg : ∀ n, WellFormed P n → WellFormed P (g n))
    (hname : ∀ n, P (g n).name) (p parent : Path) :
    Within (Keeping (Sound P)) (removeFor command operand p >>= fun n =>
      insertFor command operand parent (g n)) := by
  intro root hs
  rw [Action.after_bind]
  cases hr : root.remove p with
  | ok r =>
    obtain ⟨n, mid⟩ := r
    have hmid : WellFormed P n ∧ Sound P mid := hs.remove hr
    rw [removeFor_ok hr]
    exact within_insertFor (hg n hmid.1) (hname n) parent mid hmid.2
  | error fault =>
    rw [removeFor_error hr]
    exact hs

end Node

theorem Call.within_writeFile {m : Machine} (hm : m.Reads P) (c : Call) (operand text : String)
    (appending : Bool) : Within (Keeping (Sound P)) (c.writeFile m operand text appending) := by
  refine Action.within_of_result (fun root a root' h hs => ?_) fun root fault root' h hs => ?_
  · obtain ⟨compose, hstore⟩ := exists_store_of_writeFile h
    exact hs.store (hm operand) hstore
  · rw [c.keepsOnFault_writeFile m operand text appending root fault root' h]
    exact hs

namespace Editing

/-- What is made at a path bears the last name of it. -/
theorem within_create {fresh : String → Node} (hf : ∀ name, WellFormed P (fresh name))
    (hname : ∀ name, (fresh name).name = name) {p : Path} (hp : p.Named P) (command : String) :
    Within (Keeping (Sound P)) (create command fresh p) := by
  by_cases hne : p = []
  · subst hne
    exact Action.within_pure ()
  · obtain ⟨parent, name, rfl⟩ := Path.exists_eq_child hne
    have hlast : P (fresh name).name := by
      rw [hname]
      exact hp.last
    simp only [create, Path.parent?_child, Path.name?_child]
    exact Node.within_insertFor (hf name) hlast parent

/-- Planning the way to a path adds paths to the plan that have no other names. -/
theorem named_of_planWay {root : Node} {before after : List Path} {p : Path} (hp : p.Named P)
    (hbefore : ∀ q ∈ before, q.Named P) (h : planWay root before p = .ok after) :
    ∀ q ∈ after, q.Named P := by
  have hway : ∀ way ∈ prefixes p, way.Named P := by
    intro way hw name hn
    obtain ⟨k, -, rfl⟩ := List.mem_map.mp hw
    exact hp name (List.mem_of_mem_take hn)
  refine Plan.foldlM_invariant
    (I := fun done planned => (∀ way ∈ done, way.Named P) → ∀ q ∈ planned, q.Named P)
    (fun done planned way next hI hstep hdone => ?_) (fun _ => hbefore) h hway
  rw [List.forall_mem_append] at hdone
  split at hstep
  · split at hstep <;> cases hstep
    exact hI hdone.1
  · cases hstep
    split
    · exact hI hdone.1
    · rw [List.forall_mem_append]
      exact ⟨hI hdone.1, hdone.2⟩

/-- A plan is added to by a path that is read from an operand. -/
theorem named_of_planNew {root : Node} {before after : List Path} {p : Path} (hp : p.Named P)
    (hbefore : ∀ q ∈ before, q.Named P) (h : planNew root before p = .ok after) :
    ∀ q ∈ after, q.Named P := by
  unfold planNew at h
  split at h
  · cases h
  · split at h
    · cases h
    · split at h <;> cases h
      rw [List.forall_mem_append, List.forall_mem_singleton]
      exact ⟨hbefore, hp⟩

/-- All paths of the plan are on ways to operands. -/
theorem named_of_planMkdir {m : Machine} (hm : m.Reads P) {o : Shell.Options}
    {planned : List Path} (h : planMkdir o m = .ok planned) : ∀ p ∈ planned, p.Named P := by
  unfold planMkdir at h
  split at h
  · cases h
  · refine Plan.foldlM_invariant (I := fun _ planned => ∀ p ∈ planned, p.Named P)
      (fun _ before operand after hb ha => ?_) (by simp) h
    split at ha
    · exact named_of_planWay (hm operand) hb ha
    · exact named_of_planNew (hm operand) hb ha

/-- A node is given another time, or an empty file is made. -/
theorem within_touchOne {p : Path} (hp : p.Named P) (c : Call) (m : Machine) :
    Within (Keeping (Sound P)) (touchOne c m p) := by
  intro root hs
  rw [after_touchOne]
  split
  · exact hs.touch c.now p
  · exact within_create (fun name => Node.wellFormed_newFile name _ _ _ _) (fun _ => rfl) hp
      "touch" root hs

theorem within_removeOne (p : Path) : Within (Keeping (Sound P)) (removeOne p) :=
  within_removeOne_of fun _ _ _ hr hs => (hs.remove hr).2

section Machine

variable {m : Machine} (hm : m.Reads P) (c : Call)

include hm

theorem within_mkdir : Within (Keeping (Sound P)) (mkdir c m) := by
  refine Action.within_planned fun planned hplan => ?_
  refine (Action.within_forM_of_mem fun p hp => ?_).bind fun _ => Action.within_pure Reply.empty
  exact within_create (fun name => Node.wellFormed_newDirectory name _ _ _) (fun _ => rfl)
    (named_of_planMkdir hm hplan p hp) "mkdir"

/-- All operands of `touch` are read by the machine. -/
theorem within_touch : Within (Keeping (Sound P)) (touch c m) := by
  refine Action.within_planned fun paths hplan => ?_
  refine (Action.within_forM_of_mem fun p hp => ?_).bind fun _ => Action.within_pure Reply.empty
  unfold planTouch at hplan
  split at hplan
  · cases hplan
  · obtain ⟨operand, -, h⟩ := Plan.exists_of_mem_mapM hplan hp
    have hread : m.resolve operand = p := by
      unfold touchable at h
      dsimp only at h
      split at h <;> cases h <;> rfl
    exact within_touchOne (hread ▸ hm operand) c m

end Machine

variable (c : Call) (m : Machine)

theorem within_rm : Within (Keeping (Sound P)) (rm c m) := by
  refine Action.within_planned fun doomed _ => ?_
  exact (Within.forM within_removeOne doomed).bind fun _ => Action.within_pure Reply.empty

theorem within_shred : Within (Keeping (Sound P)) (shred c m) := by
  refine Action.within_planned fun plan _ => ?_
  refine Within.bind (Within.forM (fun p => ?_) plan.2) fun _ => Action.within_pure _
  exact Within.discard (Node.within_removeFor p)

theorem within_chown (groupOnly : Bool) : Within (Keeping (Sound P)) (chown groupOnly c m) := by
  refine Action.within_planned fun plan _ => ?_
  have hstep : ∀ p, Within (Keeping (Sound P))
      (Action.change fun root => root.modify (Node.updateAttributes plan.1.apply) p) :=
    fun p root hs => hs.updateAttributes (f := plan.1.apply) (fun _ => rfl) (fun _ => rfl) p
  exact (Within.forM hstep plan.2).bind fun _ => Action.within_pure _

variable {c m}

/-- A link is a new node, or one that stands in the tree. -/
theorem wellFormed_of_links (hs : Sound P m.root) {parent : Path} {n : Node}
    (h : Links c m parent n) : WellFormed P n := by
  obtain ⟨target, link, rest, -, h⟩ := h
  obtain ⟨-, name, hnode⟩ := planLn_ok h
  rcases linkNode_ok hnode with rfl | ⟨p, old, hold, -, rfl⟩
  · exact Node.wellFormed_newLink _ _ _ _ _
  · exact (hs.wellFormed.get? hold).renamed name

/-- The only name that `ln` may make up is that of its link. -/
theorem sound_ln (hs : Sound P m.root) (hname : ∀ parent n, Links c m parent n → P n.name) :
    Sound P ((ln c m).after m.root) := by
  unfold ln
  dsimp only
  split
  · next target link rest hoperands =>
    refine Within.keeps (Action.within_planned fun plan hplan => ?_) hs
    obtain ⟨parent, n⟩ := plan
    have hlinks : Links c m parent n := ⟨target, link, rest, hoperands, hplan⟩
    exact (Node.within_insertFor (wellFormed_of_links hs hlinks) (hname parent n hlinks) parent).bind
      fun _ => Action.within_pure _
  · exact hs

/-- What is set for a node fits it. -/
theorem fits_of_planChmod (hs : Sound P m.root) {updates : List (Path × String)}
    (h : planChmod c m = .ok updates) {u : Path × String} (hu : u ∈ updates) {n : Node}
    (hn : m.root.get? u.1 = some n) : n.Fits u.2 := by
  obtain ⟨⟨mode, files⟩, -, hfiles⟩ := Plan.bind_eq_ok_iff.mp h
  obtain ⟨operand, -, hone⟩ := Plan.exists_of_mem_mapM hfiles hu
  unfold chmodOne at hone
  dsimp only at hone
  split at hone
  · cases hone
  · next k hk =>
    split at hone
    · cases hone
    · next change hmode =>
      cases hone
      cases hk.symm.trans hn
      exact (hs.wellFormed.get? hk).marked.fits_apply hmode

/-- What is set is planned for the nodes as they are now, and setting the permissions of one leaves
the kinds of all others. -/
theorem sound_chmod (hs : Sound P m.root) : Sound P ((chmod c m).after m.root) := by
  unfold chmod
  cases hplan : planChmod c m with
  | error fault => exact hs
  | ok updates =>
    have hstep : ∀ u ∈ updates, Within
        (Keeping fun root => Sound P root ∧ ∀ v ∈ updates, ∀ n, root.get? v.1 = some n → n.Fits v.2)
        (Action.change fun root => setPermissions c.now root u) := by
      rintro u hu root ⟨hroot, hfits⟩
      refine ⟨hroot.modify (fun k => ?_) (fun k => ?_) fun k hk hwf => ?_, fun v hv n hn => ?_⟩
      · cases k <;> rfl
      · cases k <;> rfl
      · exact hwf.withAttributes (hfits u hu k hk)
      · obtain ⟨old, hold, hd, hl⟩ := Node.exists_of_get?_updateAttributes hn
        exact (hfits v hv old hold).congr hd hl
    have hrun := ((Action.within_forM_of_mem hstep).bind fun _ =>
      Action.within_pure Reply.empty).keeps ⟨hs, fun u hu n hn => fits_of_planChmod hs hplan hu hn⟩
    exact hrun.1

end Editing

namespace Transfer

variable {m : Machine}

/-- A node takes its new name from a path: from that of the destination, or of its source. -/
theorem name_of_accepted (hm : m.Reads P) {target : String} {s : Step}
    (h : Accepted m (m.resolve target) s) : P s.name := by
  have hname : s.target.Named P → P s.name := Path.Named.last
  refine hname ?_
  rw [h.target_eq, landing, h.source_eq]
  split
  · obtain ⟨parent, name, he⟩ := Path.exists_eq_child h.source_ne_nil
    rw [h.source_eq] at he
    rw [he, Path.name?_child, Option.getD_some]
    intro other hother
    rcases List.mem_append.mp hother with hin | hlast
    · exact hm target other hin
    · rw [List.mem_singleton.mp hlast]
      exact Path.Named.last (he ▸ hm s.operand)
  · exact hm target

/-- A copy or a move puts the node in under the name of its step. -/
theorem within_make {s : Step} (hname : P s.name) (c : Call) (manner : Manner) :
    Within (Keeping (Sound P)) (make c m manner s) := by
  cases manner with
  | copy =>
    intro root hs
    have hafter : (make c m .copy s).after root = (root.get? s.source).elim root fun n =>
        (Node.insertFor "cp" s.operand s.parent ((copied c m n).renamed s.name)).after root := by
      simp only [make, Action.after]
      cases root.get? s.source <;> rfl
    rw [hafter]
    cases hn : root.get? s.source with
    | none => exact hs
    | some n =>
      have hcopied : WellFormed P (copied c m n) :=
        (hs.wellFormed.get? hn).updateAttributes fun _ => rfl
      have hcopy : WellFormed P ((copied c m n).renamed s.name) := hcopied.renamed s.name
      exact Node.within_insertFor hcopy (by rwa [Node.name_renamed]) s.parent root hs
  | move =>
    exact Node.within_relocate (fun n hn => hn.renamed s.name)
      (fun n => by rwa [Node.name_renamed]) s.source s.parent

theorem within_run (hm : m.Reads P) (c : Call) (manner : Manner) :
    Within (Keeping (Sound P)) (run manner c m) := by
  refine Action.within_planned fun steps hplan => ?_
  refine (Action.within_forM_of_mem fun s hs => ?_).bind fun _ => Action.within_pure Reply.empty
  obtain ⟨sources, target, -, hsteps⟩ := planRun_ok hplan
  exact within_make (name_of_accepted hm ((plan_ok hsteps).2.1.accepted s hs)) c manner

end Transfer

namespace Archive

variable {m : Machine}

/-- The only names that come are the new ones of the plan. -/
theorem within_recompress {command : ArchiveCommand} {c : Call} {suffix : String}
    {direction : Direction} (h : recompression? command c = some (suffix, direction))
    (hname : ∀ plan, Renames command c m plan → ∀ r ∈ plan, P r.name) :
    Within (Keeping (Sound P)) (recompress suffix direction c m) := by
  refine Action.within_planned fun plan hplan => ?_
  refine (Action.within_forM_of_mem fun r hr => ?_).bind fun _ => Action.within_pure Reply.empty
  refine Node.within_relocate (fun n hn => (hn.renamed r.name).touch c.now) (fun n => ?_) _ _
  have hn : ((n.renamed r.name).touch c.now).name = r.name := by cases n <;> rfl
  rw [hn]
  exact hname plan ⟨suffix, direction, h, hplan⟩ r hr

end Archive

namespace Accounts

/-- A home bears the name of its user. -/
theorem within_makeHome {name : String} (hname : P name) (now : DateTime) :
    Within (Keeping (Sound P)) (makeHome name now) := by
  refine Action.within_update fun root a root' h hs => ?_
  dsimp only at h
  split at h
  · cases h
    exact hs
  · split at h
    · next hi =>
      cases h
      exact hs.insert (Node.wellFormed_newDirectory name name name now) hname hi
    · cases h

/-- What is removed has been sound, and what is left is. -/
theorem within_removeHome (name : String) : Within (Keeping (Sound P)) (removeHome name) := by
  intro root hs
  have hafter : (removeHome name).after root =
      if root.contains (Path.home name) = true then
        (Node.removeFor "userdel" (Path.home name).display (Path.home name)).after root
      else root := by
    rw [← Action.after_discard (Node.removeFor _ _ _)]
    simp only [removeHome, Action.after]
    cases root.contains (Path.home name) <;> rfl
  rw [hafter]
  split
  · exact Node.within_removeFor (Path.home name) root hs
  · exact hs

end Accounts

namespace Command

/-- A tree stays sound through any command if the names do that the command makes up. -/
theorem sound_runPlain {command : Command} {c : Call} {m : Machine} (hs : Sound P m.root)
    (hm : m.Reads P) (hname : ∀ name, Job.Coins ⟨command, c, m⟩ name → P name) :
    Sound P (runPlain command c m).machine.root := by
  refine related_runPlain (R := Keeping (Sound P)) ?_ (Call.within_writeFile hm c) ?_ ?_ ?_ hs
  · rintro k work rfl hwork -
    cases k <;> cases hwork
    · exact (Editing.within_chown c m true).keeps hs
    · exact Editing.sound_chmod hs
    · exact (Editing.within_chown c m false).keeps hs
    · exact (Transfer.within_run hm c .copy).keeps hs
    · exact Editing.sound_ln hs fun parent n h => hname n.name (.link h)
    · exact (Editing.within_mkdir hm c).keeps hs
    · exact (Transfer.within_run hm c .move).keeps hs
    · exact (Editing.within_rm c m).keeps hs
    · exact (Editing.within_shred c m).keeps hs
    · exact (Editing.within_touch hm c).keeps hs
  · rintro k suffix direction rfl h
    exact Archive.within_recompress h (fun _ hp r hr => hname r.name (.renamed hp hr)) m.root
  · rintro rfl name h
    exact Accounts.within_makeHome (hname name (.user h)) c.now
  · rintro rfl name - -
    exact Accounts.within_removeHome name

/-- The same of command lines. -/
theorem sound_run {x : Context} {words : List String} {m : Machine} (hs : Sound P m.root)
    (hjob : ∀ j, job? x words m = some j →
      j.machine.Reads P ∧ ∀ name, j.Coins name → P name) :
    Sound P (run x words m).machine.root := by
  obtain ⟨user, hrun⟩ := exists_user_run x words m
  rw [hrun]
  cases hj : job? x words m with
  | none => exact hs
  | some j =>
    exact sound_runPlain (root_of_job hj ▸ hs) (hjob j hj).1 (hjob j hj).2

end Command

end PocketUnix
