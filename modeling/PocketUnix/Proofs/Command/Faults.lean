import PocketUnix.Proofs.Action
import PocketUnix.Command.Run

/-!
# Faults of commands

A command that has been found by its name may refuse what it is asked to do, but it never answers
that there is no such command. This is so because all faults of its parts are of its own making: the
plans it draws up, the steps it takes, and the files it reads and writes.
-/

namespace PocketUnix

variable {σ α β : Type}

/-- The fault lies in what a command was asked to do, and not in its name. -/
@[grind =]
def Fault.isOwn : Fault → Bool
  | .unsupported _ => false
  | _ => true

@[grind =]
theorem Fault.isOwn_ofTree (command operand : String) (fault : TreeFault) :
    (Fault.ofTree command operand fault).isOwn = true := by
  cases fault <;> rfl

@[grind =]
theorem Call.isOwn_writeFault (c : Call) (operand : String) (fault : TreeFault) :
    (c.writeFault operand fault).isOwn = true := by
  cases fault <;> rfl

namespace Plan

/-- Whatever is refused is refused with a fault of the command's own. -/
def Handled (x : Except Fault α) : Prop := ∀ fault, x = .error fault → fault.isOwn = true

@[grind .]
theorem handled_ok (a : α) : Handled (.ok a : Except Fault α) := nofun

@[grind =]
theorem handled_error {fault : Fault} :
    Handled (.error fault : Except Fault α) ↔ fault.isOwn = true := by
  simp [Handled]

/-- Whichever of two actions stops, it does so with a fault of its own. -/
@[grind ←]
theorem Handled.bind {x : Except Fault α} {f : α → Except Fault β} (hx : Handled x)
    (hf : ∀ a, Handled (f a)) : Handled (x >>= f) := by
  cases x with
  | error fault => exact handled_error.mpr (hx fault rfl)
  | ok a => exact hf a

@[grind ←]
theorem Handled.map {x : Except Fault α} (hx : Handled x) (f : α → β) : Handled (x.map f) := by
  cases x with
  | error fault => exact handled_error.mpr (hx fault rfl)
  | ok a => exact handled_ok (f a)

@[grind ←]
theorem handled_mapM {f : α → Except Fault β} (hf : ∀ a, Handled (f a)) (l : List α) :
    Handled (l.mapM f) := by
  induction l with
  | nil => exact handled_ok []
  | cons a l ih =>
    rw [List.mapM_cons]
    exact (hf a).bind fun b => ih.bind fun bs => handled_ok (b :: bs)

@[grind ←]
theorem handled_foldlM {f : β → α → Except Fault β} (hf : ∀ b a, Handled (f b a)) (l : List α)
    (b : β) : Handled (l.foldlM f b) := by
  induction l generalizing b with
  | nil => exact handled_ok b
  | cons a l ih => exact (hf b a).bind ih

@[grind ←]
theorem handled_forM {f : α → Except Fault Unit} (hf : ∀ a, Handled (f a)) (l : List α) :
    Handled (l.forM f) := by
  induction l with
  | nil => exact handled_ok ()
  | cons a l ih => exact (hf a).bind fun _ => ih

end Plan

open PocketUnix.Plan (Handled)

namespace Action

/-- An action that stops does so with a fault of the command's own. -/
def Handled (x : Action σ α) : Prop := ∀ s fault t, x s = .error fault t → fault.isOwn = true

@[grind .]
theorem handled_pure (a : α) : Handled (pure a : Action σ α) := nofun

@[grind .]
theorem handled_change (f : σ → σ) : Handled (change f) := nofun

@[grind ←]
theorem handled_fail {fault : Fault} (h : fault.isOwn = true) :
    Handled (fail fault : Action σ α) := by
  rintro s _ _ ⟨⟩
  exact h

@[grind ←]
theorem handled_ofExcept {x : Except Fault α} (hx : Plan.Handled x) :
    Handled (ofExcept x : Action σ α) := by
  cases x with
  | error fault => exact handled_fail (hx fault rfl)
  | ok a => exact handled_pure a

/-- A change that is refused is refused by its own check. -/
@[grind ←]
theorem handled_update {f : σ → Except Fault (α × σ)} (hf : ∀ s, Plan.Handled (f s)) :
    Handled (update f) := by
  intro s fault t h
  unfold update at h
  cases hs : f s with
  | ok a =>
    rw [hs] at h
    cases h
  | error e =>
    rw [hs] at h
    cases h
    exact hf s _ hs

/-- Whichever of two actions stops, it does so with a fault of its own. -/
@[grind ←]
theorem Handled.bind {x : Action σ α} {f : α → Action σ β} (hx : Handled x)
    (hf : ∀ a, Handled (f a)) : Handled (x >>= f) := by
  intro s fault t h
  rw [bind_apply] at h
  cases hs : x s with
  | ok a s' =>
    rw [hs] at h
    exact hf a s' fault t h
  | error e s' =>
    rw [hs] at h
    cases h
    exact hx s _ _ hs

@[grind ←]
theorem Handled.discard {x : Action σ α} (hx : Handled x) : Handled (discard x) :=
  hx.bind fun _ => handled_pure _

@[grind ←]
theorem handled_forM {f : α → Action σ Unit} (hf : ∀ a, Handled (f a)) (l : List α) :
    Handled (l.forM f) := by
  induction l with
  | nil => exact handled_pure ()
  | cons a l ih => exact (hf a).bind fun _ => ih

/-- The fault is the same when the tree is that of a machine. -/
@[grind ←]
theorem Handled.onTree {x : Action Node α} (hx : Handled x) : Handled x.onTree := by
  intro m fault m' h
  unfold Action.onTree at h
  cases hm : x m.root with
  | ok a root =>
    rw [hm] at h
    cases h
  | error e root =>
    rw [hm] at h
    cases h
    exact hx m.root _ root hm

/-- Also where the tables are those of a machine. -/
@[grind ←]
theorem Handled.onSystem {x : Action System α} (hx : Handled x) : Handled x.onSystem := by
  intro m fault m' h
  unfold Action.onSystem at h
  cases hm : x m.system with
  | ok a system =>
    rw [hm] at h
    cases h
  | error e system =>
    rw [hm] at h
    cases h
    exact hx m.system _ system hm

end Action

/-- A command answers, or fails with a fault of its own. -/
def Outcome.Handled (o : Outcome) : Prop := Plan.Handled o.answer

namespace Outcome

theorem handled_ofAction (m : Machine) {action : Action Machine Reply} (h : action.Handled) :
    (ofAction m action).Handled := by
  unfold ofAction
  cases hm : action m with
  | ok r m' => exact Plan.handled_ok r
  | error fault m' => exact Plan.handled_error.mpr (h m fault m' hm)

theorem handled_ofTree (m : Machine) {action : TreeAction} (h : Action.Handled action) :
    (ofTree m action).Handled :=
  handled_ofAction m h.onTree

theorem handled_ofSystem (m : Machine) {action : SystemAction} (h : Action.Handled action) :
    (ofSystem m action).Handled :=
  handled_ofAction m h.onSystem

end Outcome

variable (c : Call) (m : Machine)

namespace Node

@[grind .]
theorem handled_insertFor (command operand : String) (parent : Path) (entry : Node) :
    (insertFor command operand parent entry).Handled := by
  unfold insertFor
  grind

@[grind .]
theorem handled_removeFor (command operand : String) (p : Path) :
    (removeFor command operand p).Handled := by
  refine Action.handled_update fun root => ?_
  cases root.remove p with
  | ok a => exact Plan.handled_ok a
  | error fault => exact Plan.handled_error.mpr (Fault.isOwn_ofTree command operand fault)

end Node

namespace Call

@[grind .]
theorem handled_readFile (operand : String) : Handled (c.readFile m operand) := by
  unfold readFile
  grind

@[grind .]
theorem handled_readInput (operand : Option String) : Handled (c.readInput m operand) := by
  unfold readInput
  grind

@[grind .]
theorem handled_writeFile (operand text : String) (appending : Bool) :
    (c.writeFile m operand text appending).Handled := by
  refine Action.handled_update fun root => ?_
  grind

end Call

namespace Editing

@[grind .]
theorem handled_create (command : String) (fresh : String → Node) (p : Path) :
    (create command fresh p).Handled := by
  unfold create
  grind

@[grind .]
theorem handled_planWay (root : Node) (planned : List Path) (p : Path) :
    Handled (planWay root planned p) := by
  unfold planWay
  grind

@[grind .]
theorem handled_planNew (root : Node) (planned : List Path) (p : Path) :
    Handled (planNew root planned p) := by
  unfold planNew
  grind

theorem handled_mkdir : Action.Handled (mkdir c m) := by
  unfold mkdir planMkdir
  grind

@[grind .]
theorem handled_touchOne (p : Path) : (touchOne c m p).Handled := by
  intro root
  unfold touchOne
  split
  · nofun
  · exact handled_create "touch" _ p root

theorem handled_touch : Action.Handled (touch c m) := by
  unfold touch planTouch touchable
  grind

@[grind .]
theorem handled_removeOne (p : Path) : (removeOne p).Handled := by
  intro root fault root' h
  unfold removeOne at h
  split at h <;> cases h
  exact Fault.isOwn_ofTree "rm" p.display _

@[grind .]
theorem handled_removable (recursive force : Bool) (operand : String) :
    Handled (removable m recursive force operand) := by
  unfold removable
  grind

theorem handled_rm : Action.Handled (rm c m) := by
  unfold rm planRm
  grind

@[grind .]
theorem handled_planLn (kind : LinkKind) (force : Bool) (target link : String) :
    Handled (planLn c m kind force target link) := by
  unfold planLn linkNode
  grind

theorem handled_ln : Action.Handled (ln c m) := by
  unfold ln
  grind

@[grind .]
theorem handled_settingArgs (switches : List String) : Handled (settingArgs c switches) := by
  unfold settingArgs
  grind

@[grind .]
theorem handled_chmodOne (mode operand : String) : Handled (chmodOne m mode operand) := by
  unfold chmodOne
  grind

theorem handled_chmod : Action.Handled (chmod c m) := by
  unfold chmod planChmod
  grind

@[grind .]
theorem handled_planChown (groupOnly : Bool) : Handled (planChown groupOnly c m) := by
  unfold planChown
  grind

theorem handled_chown (groupOnly : Bool) : Action.Handled (chown groupOnly c m) := by
  unfold chown
  grind

theorem handled_shred : Action.Handled (shred c m) := by
  unfold shred planShred shredOne
  grind

end Editing

namespace Transfer

@[grind .]
theorem handled_planStep (command target : String) (destination : Path) (plan : List Step)
    (operand : String) : Handled (planStep m command target destination plan operand) := by
  unfold planStep place conflict
  grind

/-- A transfer takes out, or looks up, and puts in. Each of these names the operand that it fails
on. -/
@[grind .]
theorem handled_make (manner : Manner) (s : Step) : (make c m manner s).Handled := by
  cases manner with
  | copy =>
    intro root
    unfold make
    dsimp only
    split
    · nofun
    · exact Node.handled_insertFor "cp" s.operand s.parent _ root
  | move =>
    unfold make
    grind

theorem handled_run (manner : Manner) : Action.Handled (run manner c m) := by
  unfold run planRun plan
  grind

end Transfer

namespace Writing

@[grind .]
theorem handled_redirected (words : List String) : Handled (redirected words) := by
  fun_induction redirected words with grind

theorem handled_echo : Action.Handled (echo c m) := by
  unfold echo
  grind

theorem handled_tee : Action.Handled (tee c m) := by
  unfold tee checkTee
  grind

@[grind .]
theorem handled_planSed : Handled (planSed c m) := by
  unfold planSed
  grind

theorem handled_sed : Action.Handled (sed c m) := by
  unfold sed
  grind

theorem handled_download : Action.Handled (download c m) := by
  unfold download
  grind

end Writing

namespace Archive

@[grind .]
theorem handled_pack (name : String) (sources : List String) :
    (pack c m name sources).Handled := by
  unfold pack checkSources
  grind

theorem handled_tar : Action.Handled (tar c m) := by
  unfold tar
  grind

theorem handled_zip : Action.Handled (zip c m) := by
  unfold zip
  grind

theorem handled_jar : Action.Handled (jar c m) := by
  unfold jar
  grind

@[grind .]
theorem handled_newName (suffix : String) (direction : Direction) (operand name : String) :
    Handled (newName c suffix direction operand name) := by
  unfold newName
  grind

/-- An operand is refused for what stands there or for its name. -/
@[grind .]
theorem handled_planOne (suffix : String) (direction : Direction) (operand : String) :
    Handled (planOne c m suffix direction operand) := by
  unfold planOne
  dsimp only
  split
  · exact Plan.handled_error.mpr rfl
  · split
    · exact Plan.handled_error.mpr rfl
    · split
      · exact Plan.handled_error.mpr rfl
      · refine (handled_newName c suffix direction operand _).bind fun name => ?_
        split
        · exact Plan.handled_ok _
        · exact Plan.handled_error.mpr (Fault.isOwn_ofTree c.name operand _)

theorem handled_recompress (suffix : String) (direction : Direction) :
    Action.Handled (recompress suffix direction c m) := by
  unfold recompress planAll rename
  grind

theorem handled_unzip : Handled (unzip c m) := by
  unfold unzip
  grind

end Archive

theorem Files.handled_cd : (cd c m).Handled := by
  unfold cd Outcome.reply Outcome.fail Outcome.Handled
  grind

theorem Listing.handled_ls : Handled (ls c m) := by
  unfold ls
  grind

theorem Listing.handled_file : Handled (file c m) := by
  unfold file
  grind

theorem Listing.handled_stat : Handled (stat c m) := by
  unfold stat
  grind

theorem PathNames.handled_realpath : Handled (realpath c m) := by
  unfold realpath
  grind

theorem PathNames.handled_basename : Handled (basename c) := by
  unfold basename
  grind

theorem PathNames.handled_dirname : Handled (dirname c) := by
  unfold dirname
  grind

namespace Walk

@[grind .]
theorem handled_read (s : Search) (args : List String) : Handled (s.read args) := by
  fun_induction Search.read s args with grind

theorem handled_find : Handled (find c m) := by
  unfold find Search.run
  grind

theorem handled_tree : Handled (tree c m) := by
  unfold tree
  grind

theorem handled_du : Handled (du c m) := by
  unfold du
  grind

theorem handled_locate : Handled (locate c m) := by
  unfold locate
  grind

end Walk

namespace Reading

@[grind .]
theorem handled_filtered (operand : Option String) (f : String → String) :
    Handled (filtered c m operand f) :=
  (c.handled_readInput m operand).map _

theorem handled_cat : Handled (cat c m) := by
  unfold cat
  grind

theorem handled_grep : Handled (grep c m) := by
  unfold grep sources
  grind

theorem handled_awk : Handled (awk c m) := by
  unfold awk
  grind

theorem handled_wc : Handled (wc c m) := by
  unfold wc
  grind

theorem handled_ends (e : End) : Handled (ends e c m) := by
  unfold ends
  grind

theorem handled_cut : Handled (cut c m) := by
  unfold cut
  grind

theorem handled_tr : Handled (tr c) := by
  unfold tr
  grind

theorem handled_jq : Handled (jq c m) := by
  unfold jq
  grind

theorem handled_diff : Handled (diff c m) := by
  unfold diff
  grind

theorem handled_paste : Handled (paste c m) := by
  unfold paste
  grind

theorem handled_join : Handled (join c m) := by
  unfold join
  grind

end Reading

namespace Processes

theorem handled_kill : Action.Handled (kill c) := by
  unfold kill killTarget
  grind

@[grind .]
theorem handled_criterion : Handled (criterion c) := by
  unfold criterion
  grind

@[grind .]
theorem handled_endWhere (p : String → Bool) : (endWhere p).Handled :=
  Action.handled_update fun _ => Plan.handled_ok _

theorem handled_killall : Action.Handled (killall c) := by
  unfold killall
  grind

theorem handled_pkill : Action.Handled (pkill c) := by
  unfold pkill
  grind

theorem handled_pgrep : Handled (pgrep c m) := by
  unfold pgrep
  grind

theorem handled_crontab : Handled (crontab c m) := by
  unfold crontab
  grind

end Processes

theorem Host.handled_date : Handled (date c) := by
  unfold date
  grind

theorem Host.handled_hostname : Action.Handled (hostname c) := by
  intro s fault s' h
  unfold hostname at h
  grind

theorem Disk.handled_mount (listing : Reply) : Handled (mount listing c m) := by
  unfold mount
  grind

theorem Desk.handled_openEditor : Handled (openEditor c m) := by
  unfold openEditor
  grind

namespace Accounts

theorem handled_su : Action.Handled (su c) := by
  unfold su
  grind

theorem handled_passwd : Handled (passwd c m) := by
  unfold passwd
  grind

theorem handled_id : Handled (id c m) := by
  unfold id
  grind

theorem handled_groups : Handled (groups c m) := by
  unfold groups
  grind

theorem handled_groupadd : Action.Handled (groupadd c) := by
  unfold groupadd
  grind

@[grind .]
theorem handled_join (name group : String) : (join name group).Handled := by
  unfold join
  grind

theorem handled_usermod : Action.Handled (usermod c) := by
  unfold usermod
  grind

@[grind .]
theorem handled_addUser (name : String) : (addUser name).Handled := by
  unfold addUser
  grind

@[grind .]
theorem handled_makeHome (name : String) (now : DateTime) : (makeHome name now).Handled := by
  unfold makeHome
  grind

theorem handled_useradd : Action.Handled (useradd c m) := by
  unfold useradd
  grind

@[grind .]
theorem handled_removeHome (name : String) : (removeHome name).Handled := by
  intro root
  unfold removeHome
  dsimp only
  split
  · exact (Node.handled_removeFor "userdel" _ _).discard root
  · nofun

theorem handled_userdel : Action.Handled (userdel c) := by
  unfold userdel removeUser
  grind

end Accounts

open PocketUnix.Outcome (handled_ofAction handled_ofTree handled_ofSystem)

/-- The commands on files, and so on for each family: none of them looks up a command. -/
theorem Files.handled_run (command : FileCommand) : (run command c m).Handled := by
  cases command
  case basename => exact PathNames.handled_basename c
  case cd => exact handled_cd c m
  case chattr | lsattr | pwd | whereis | which => exact Plan.handled_ok _
  case chgrp => exact handled_ofTree m (Editing.handled_chown c m true)
  case chmod => exact handled_ofTree m (Editing.handled_chmod c m)
  case chown => exact handled_ofTree m (Editing.handled_chown c m false)
  case cp => exact handled_ofTree m (Transfer.handled_run c m .copy)
  case dirname => exact PathNames.handled_dirname c
  case du => exact Walk.handled_du c m
  case file => exact Listing.handled_file c m
  case find => exact Walk.handled_find c m
  case ln => exact handled_ofTree m (Editing.handled_ln c m)
  case locate => exact Walk.handled_locate c m
  case ls => exact Listing.handled_ls c m
  case mkdir => exact handled_ofTree m (Editing.handled_mkdir c m)
  case mv => exact handled_ofTree m (Transfer.handled_run c m .move)
  case realpath => exact PathNames.handled_realpath c m
  case rm => exact handled_ofTree m (Editing.handled_rm c m)
  case shred => exact handled_ofTree m (Editing.handled_shred c m)
  case stat => exact Listing.handled_stat c m
  case touch => exact handled_ofTree m (Editing.handled_touch c m)
  case tree => exact Walk.handled_tree c m

theorem Reading.handled_run (command : TextCommand) : (run command c m).Handled := by
  cases command
  case awk => exact handled_awk c m
  case cat => exact handled_cat c m
  case cut => exact handled_cut c m
  case diff => exact handled_diff c m
  case echo => exact handled_ofTree m (Writing.handled_echo c m)
  case grep => exact handled_grep c m
  case head => exact handled_ends c m .head
  case tail => exact handled_ends c m .tail
  case join => exact handled_join c m
  case jq => exact handled_jq c m
  case paste => exact handled_paste c m
  case sed => exact handled_ofTree m (Writing.handled_sed c m)
  case tee => exact handled_ofTree m (Writing.handled_tee c m)
  case tr => exact handled_tr c
  case wc => exact handled_wc c m
  case zgrep => exact Plan.handled_ok _
  case column | less | more | nl | rev | sort | uniq => exact handled_filtered c m _ _

theorem Processes.handled_run (command : ProcessCommand) : (run command c m).Handled := by
  cases command
  case kill => exact handled_ofSystem m (handled_kill c)
  case killall => exact handled_ofSystem m (handled_killall c)
  case pkill => exact handled_ofSystem m (handled_pkill c)
  case pgrep => exact handled_pgrep c m
  case crontab => exact handled_crontab c m
  all_goals exact Plan.handled_ok _

theorem Host.handled_run (command : HostCommand) : (run command c m).Handled := by
  cases command
  case date => exact handled_date c
  case hostname => exact handled_ofSystem m (handled_hostname c)
  all_goals exact Plan.handled_ok _

theorem Net.handled_run (command : NetworkCommand) : (run command c m).Handled := by
  cases command
  case ping =>
    simp only [run]
    split
    · exact Plan.handled_error.mpr rfl
    · exact Plan.handled_ok _
  case ssh => exact Plan.handled_error.mpr rfl
  case curl | wget => exact handled_ofTree m (Writing.handled_download c m)
  all_goals exact Plan.handled_ok _

/-- Users and groups that are not known are faults of their own. -/
theorem Accounts.handled_run (command : UserCommand) : (run command c m).Handled := by
  cases command
  case su => exact handled_ofSystem m (handled_su c)
  case passwd => exact handled_passwd c m
  case id => exact handled_id c m
  case groups => exact handled_groups c m
  case useradd => exact handled_ofAction m (handled_useradd c m)
  case userdel => exact handled_ofAction m (handled_userdel c)
  case groupadd => exact handled_ofSystem m (handled_groupadd c)
  case usermod => exact handled_ofSystem m (handled_usermod c)
  case visudo | w | who | whoami => exact Plan.handled_ok _
  all_goals exact Plan.handled_error.mpr rfl

theorem Archive.handled_run (command : ArchiveCommand) : (run command c m).Handled := by
  cases command
  case tar => exact handled_ofTree m (handled_tar c m)
  case zip => exact handled_ofTree m (handled_zip c m)
  case jar => exact handled_ofTree m (handled_jar c m)
  case unzip => exact handled_unzip c m
  case gzip | bzip2 | xz | gunzip => exact handled_ofTree m (handled_recompress c m _ _)
  case rsync | cpio | dd => exact Plan.handled_ok _

theorem Disk.handled_run (command : DiskCommand) : (run command c m).Handled := by
  cases command
  case mount | umount => exact handled_mount c m _
  all_goals exact Plan.handled_ok _

theorem Desk.handled_run (command : SessionCommand) : (run command c m).Handled := by
  cases command
  case vim | vi | nano => exact handled_openEditor c m
  all_goals exact Plan.handled_ok _

/-- No command that was found by its name answers that there is no such command. -/
theorem Command.handled_runPlain (command : Command) : (runPlain command c m).Handled := by
  cases command with
  | files k => exact Files.handled_run c m k
  | text k => exact Reading.handled_run c m k
  | process k => exact Processes.handled_run c m k
  | host k => exact Host.handled_run c m k
  | network k => exact Net.handled_run c m k
  | users k => exact Accounts.handled_run c m k
  | archive k => exact Archive.handled_run c m k
  | disk k => exact Disk.handled_run c m k
  | session k => exact Desk.handled_run c m k

end PocketUnix
