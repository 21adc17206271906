import PocketUnix.Proofs.Command.Job
import PocketUnix.Proofs.Plan

/-!
# What commands ask of their session

Most commands only answer with text. One clears the transcript, and three open the editor. No answer
is shown as a line that was typed or as a fault.
-/

namespace PocketUnix

/-- Answers are shown as output or as information. -/
def Tone.isAnswer : Tone → Bool
  | .output | .info => true
  | .input | .error => false

/-- Of the four tones two are for what has been typed and for faults. -/
theorem Tone.isAnswer_iff {tone : Tone} :
    tone.isAnswer = true ↔ tone = .output ∨ tone = .info := by
  cases tone <;> simp [isAnswer]

/-- The reply asks for nothing but to be shown as an answer. -/
def Reply.isPlain (r : Reply) : Bool := r.effect.isNone && r.tone.isAnswer

def Reply.Plain (r : Reply) : Prop := r.isPlain = true

theorem Reply.plain_iff {r : Reply} : r.Plain ↔ r.effect = none ∧ r.tone.isAnswer = true := by
  rw [Plain, isPlain, Bool.and_eq_true, Option.isNone_iff_eq_none]

/-- An answer that is no fault is plain. -/
def Answer.Plain (answer : Answer) : Prop := ∀ r, answer = .ok r → r.Plain

namespace Answer

variable {α : Type}

theorem plain_error (fault : Fault) : Plain (.error fault) := nofun

theorem plain_ok {r : Reply} (h : r.Plain) : Plain (.ok r) := by
  rintro _ ⟨⟩
  exact h

theorem plain_bind {x : Except Fault α} {f : α → Answer} (h : ∀ a, Plain (f a)) :
    Plain (x >>= f) := by
  intro r hr
  obtain ⟨a, -, ha⟩ := Plan.bind_eq_ok_iff.mp hr
  exact h a r ha

theorem plain_map {x : Except Fault α} {f : α → Reply} (h : ∀ a, (f a).Plain) :
    Plain (x.map f) := by
  intro r hr
  obtain ⟨a, -, rfl⟩ := Plan.map_eq_ok_iff.mp hr
  exact h a

end Answer

namespace Action

variable {σ α : Type}

/-- An action that does not fail gives a plain reply. -/
def Plain (x : Action σ Reply) : Prop := ∀ s r s', x s = .ok r s' → r.Plain

theorem plain_pure {r : Reply} (h : r.Plain) : Plain (pure r : Action σ Reply) := by
  rintro s _ _ ⟨⟩
  exact h

theorem plain_fail (fault : Fault) : Plain (fail fault : Action σ Reply) := nofun

theorem plain_bind {x : Action σ α} {f : α → Action σ Reply} (h : ∀ a, Plain (f a)) :
    Plain (x >>= f) := by
  intro s r s' hr
  rw [bind_apply] at hr
  cases hx : x s with
  | ok a t =>
    rw [hx] at hr
    exact h a t r s' hr
  | error fault t =>
    rw [hx] at hr
    cases hr

end Action

/-- An outcome that is no fault is plain. -/
def Outcome.Plain (o : Outcome) : Prop := Answer.Plain o.answer

namespace Outcome

/-- The outcome has the reply of its action. -/
theorem plain_ofAction (m : Machine) {action : Action Machine Reply} (h : action.Plain) :
    (ofAction m action).Plain := by
  intro r hr
  unfold ofAction at hr
  cases ha : action m with
  | ok r' m' =>
    rw [ha] at hr
    cases hr
    exact h m _ m' ha
  | error fault m' =>
    rw [ha] at hr
    cases hr

/-- So has the outcome of work on the tree. -/
theorem plain_ofTree (m : Machine) {action : TreeAction} (h : Action.Plain action) :
    (ofTree m action).Plain := by
  refine plain_ofAction m fun m r m' hr => ?_
  unfold Action.onTree at hr
  cases ha : action m.root with
  | ok r' root =>
    rw [ha] at hr
    cases hr
    exact h _ _ root ha
  | error fault root =>
    rw [ha] at hr
    cases hr

/-- And that of work on the system tables. -/
theorem plain_ofSystem (m : Machine) {action : SystemAction} (h : Action.Plain action) :
    (ofSystem m action).Plain := by
  refine plain_ofAction m fun m r m' hr => ?_
  unfold Action.onSystem at hr
  cases ha : action m.system with
  | ok r' system =>
    rw [ha] at hr
    cases hr
    exact h _ _ system ha
  | error fault system =>
    rw [ha] at hr
    cases hr

end Outcome

open PocketUnix.Answer (plain_error plain_ok plain_bind plain_map)
open PocketUnix.Action (plain_pure plain_fail)

variable (c : Call) (m : Machine)

/-- What is printed is plain, and where it is stored nothing is said. -/
theorem Writing.plain_echo : Action.Plain (echo c m) := by
  refine Action.plain_bind fun plan => ?_
  obtain ⟨words, redirection⟩ := plan
  cases redirection with
  | none => exact plain_pure rfl
  | some r => exact Action.plain_bind fun _ => plain_pure rfl

theorem Writing.plain_sed : Action.Plain (sed c m) := by
  refine Action.plain_bind fun plan => ?_
  obtain ⟨result, file⟩ := plan
  cases file with
  | none => exact plain_pure rfl
  | some file => exact Action.plain_bind fun _ => plain_pure rfl

theorem Writing.plain_download : Action.Plain (download c m) := by
  unfold download
  dsimp only
  split
  · exact plain_fail _
  · exact Action.plain_bind fun _ => plain_pure rfl

theorem Editing.plain_ln : Action.Plain (ln c m) := by
  unfold ln
  dsimp only
  split
  · exact Action.plain_bind fun _ => Action.plain_bind fun _ => plain_pure rfl
  · exact plain_fail _

theorem Archive.plain_tar : Action.Plain (tar c m) := by
  unfold tar
  dsimp only
  split
  · exact plain_fail _
  · split
    · refine Action.plain_bind fun _ => ?_
      split <;> exact plain_pure rfl
    · split
      · exact plain_pure rfl
      · exact plain_fail _

theorem Archive.plain_jar : Action.Plain (jar c m) := by
  unfold jar
  split
  · exact plain_pure rfl
  · exact Action.plain_bind fun _ => plain_pure rfl

/-- All that is done on the tree is answered plainly. -/
theorem Command.plain_of_treeWork {command : Command} {work : Call → Machine → TreeAction}
    (h : command.treeWork? = some work) : Action.Plain (work c m) := by
  unfold treeWork? at h
  split at h <;> cases h
  case h_5 => exact Editing.plain_ln c m
  case h_11 => exact Writing.plain_echo c m
  case h_12 => exact Writing.plain_sed c m
  case h_14 | h_15 => exact Writing.plain_download c m
  case h_16 => exact Archive.plain_tar c m
  case h_17 => exact Action.plain_bind fun _ => plain_pure rfl
  case h_18 => exact Archive.plain_jar c m
  all_goals exact Action.plain_bind fun _ => Action.plain_bind fun _ => plain_pure rfl

namespace Listing

theorem plain_ls : (ls c m).Plain := by
  unfold ls
  dsimp only
  split
  · exact plain_error _
  · split <;> exact plain_ok rfl
  · exact plain_ok rfl

theorem plain_file : (file c m).Plain := by
  unfold file
  dsimp only
  split
  · exact plain_error _
  · exact plain_ok rfl

theorem plain_stat : (stat c m).Plain := by
  unfold stat
  dsimp only
  split
  · exact plain_error _
  · exact plain_bind fun _ => plain_ok rfl

end Listing

namespace PathNames

theorem plain_realpath : (realpath c m).Plain := by
  unfold realpath
  dsimp only
  split
  · exact plain_ok rfl
  · exact plain_error _

theorem plain_basename : (basename c).Plain := by
  unfold basename
  split
  · exact plain_error _
  · exact plain_ok rfl

theorem plain_dirname : (dirname c).Plain := by
  unfold dirname
  split
  · exact plain_error _
  · exact plain_ok rfl

end PathNames

namespace Walk

theorem plain_find : (find c m).Plain := by
  refine plain_bind fun search => ?_
  unfold Search.run
  dsimp only
  split
  · exact plain_error _
  · exact plain_ok rfl

theorem plain_tree : (tree c m).Plain := by
  unfold tree
  dsimp only
  split
  · exact plain_ok rfl
  · exact plain_error _

theorem plain_du : (du c m).Plain := plain_bind fun _ => plain_ok rfl

theorem plain_locate : (locate c m).Plain := by
  unfold locate
  dsimp only
  split
  · exact plain_error _
  · exact plain_ok rfl

end Walk

theorem Files.plain_cd : (cd c m).Plain := by
  unfold cd
  dsimp only
  split
  · exact plain_ok rfl
  · exact plain_error _

namespace Reading

theorem plain_filtered (operand : Option String) (f : String → String) :
    (filtered c m operand f).Plain :=
  plain_map fun _ => rfl

theorem plain_cat : (cat c m).Plain := by
  have hshown : ∀ (rows : List String) (text : String), Answer.Plain
      (if (c.options "").has 'n' = true then .ok (.lines rows) else .ok (.output text)) := by
    intro rows text
    split <;> exact plain_ok rfl
  unfold cat
  dsimp only
  split
  · exact hshown _ c.stdin
  · exact plain_bind fun _ => hshown _ _

theorem plain_grep : (grep c m).Plain := by
  unfold grep
  dsimp only
  split
  · exact plain_error _
  · exact plain_bind fun _ => plain_ok rfl

theorem plain_awk : (awk c m).Plain := by
  unfold awk
  dsimp only
  split
  · exact plain_error _
  · exact plain_bind fun _ => plain_ok rfl

theorem plain_wc : (wc c m).Plain := plain_bind fun _ => plain_ok rfl

theorem plain_ends (e : End) : (ends e c m).Plain := by
  unfold ends
  dsimp only
  split
  · exact plain_filtered c m _ _
  · split
    · exact plain_filtered c m _ _
    · exact plain_error _

theorem plain_cut : (cut c m).Plain := by
  refine plain_bind fun text => ?_
  dsimp only
  split
  · split
    · exact plain_error _
    · exact plain_ok rfl
  · split
    · exact plain_error _
    · exact plain_ok rfl
  · exact plain_ok rfl

theorem plain_tr : (tr c).Plain := by
  unfold tr
  dsimp only
  split
  · exact plain_ok rfl
  · split
    · exact plain_ok rfl
    · split
      · exact plain_ok rfl
      · split
        · exact plain_ok rfl
        · exact plain_error _

theorem plain_jq : (jq c m).Plain := by
  refine plain_bind fun text => ?_
  split
  · exact plain_ok rfl
  · split
    · exact plain_error _
    · split
      · exact plain_error _
      · exact plain_ok rfl

theorem plain_diff : (diff c m).Plain := by
  unfold diff
  split
  · exact plain_bind fun _ => plain_bind fun _ => plain_ok rfl
  · exact plain_error _

theorem plain_paste : (paste c m).Plain := by
  unfold paste
  dsimp only
  split
  · exact plain_ok rfl
  · exact plain_bind fun _ => plain_ok rfl

theorem plain_join : (join c m).Plain := by
  unfold join
  dsimp only
  split
  · exact plain_bind fun _ => plain_bind fun _ => plain_ok rfl
  · exact plain_filtered c m _ _

end Reading

namespace Processes

theorem plain_ps : (ps c m).Plain := by
  unfold ps
  split <;> rfl

theorem plain_kill : Action.Plain (kill c) := by
  unfold kill
  split
  · exact plain_pure rfl
  · exact Action.plain_bind fun _ => Action.plain_bind fun _ => plain_pure rfl

theorem plain_killall : Action.Plain (killall c) := by
  refine Action.plain_bind fun _ => Action.plain_bind fun _ => ?_
  split
  · exact plain_fail _
  · exact plain_pure rfl

theorem plain_crontab : (crontab c m).Plain := by
  unfold crontab
  dsimp only
  split
  · exact plain_ok rfl
  · split
    · exact plain_ok rfl
    · exact plain_error _

end Processes

namespace Host

theorem plain_date : (date c).Plain := by
  unfold date
  split
  · exact plain_ok rfl
  · split
    · exact plain_ok rfl
    · exact plain_error _

theorem plain_hostname : Action.Plain (hostname c) := by
  rintro s r s' h
  unfold hostname at h
  dsimp only at h
  split at h
  · cases h
    rfl
  · split at h
    · cases h
      rfl
    · split at h <;> cases h
      rfl

theorem plain_uname : (uname c m).Plain := by
  unfold uname
  dsimp only
  split <;> rfl

theorem plain_free : (free c).Plain := by
  unfold free
  split <;> rfl

end Host

theorem Disk.plain_df : (df c).Plain := by
  unfold df
  split <;> rfl

theorem Disk.plain_mount {listing : Reply} (h : listing.Plain) : (mount listing c m).Plain := by
  unfold mount
  split
  · exact plain_ok h
  · split
    · exact plain_ok rfl
    · exact plain_error _

theorem Archive.plain_unzip : (unzip c m).Plain := by
  unfold unzip
  dsimp only
  split
  · exact plain_ok rfl
  · split
    · exact plain_ok rfl
    · exact plain_error _

namespace Accounts

theorem plain_passwd : (passwd c m).Plain := by
  unfold passwd
  split
  · exact plain_ok rfl
  · split
    · exact plain_error _
    · split
      · exact plain_ok rfl
      · exact plain_error _

theorem plain_id : (id c m).Plain := by
  unfold id
  dsimp only
  split
  · exact plain_error _
  · exact plain_ok rfl

theorem plain_groups : (groups c m).Plain := by
  unfold groups
  dsimp only
  split
  · exact plain_error _
  · exact plain_ok rfl

theorem plain_groupadd : Action.Plain (groupadd c) := by
  unfold groupadd
  split
  · exact plain_fail _
  · exact Action.plain_bind fun _ => plain_pure rfl

theorem plain_usermod : Action.Plain (usermod c) := by
  unfold usermod
  dsimp only
  split
  · exact Action.plain_bind fun _ => plain_pure rfl
  · exact plain_fail _

theorem plain_useradd : Action.Plain (useradd c m) := by
  unfold useradd
  dsimp only
  split
  · exact plain_fail _
  · split
    · exact plain_fail _
    · refine Action.plain_bind fun _ => ?_
      split
      · exact Action.plain_bind fun _ => plain_pure rfl
      · exact plain_pure rfl

theorem plain_userdel : Action.Plain (userdel c) := by
  unfold userdel
  dsimp only
  split
  · exact plain_fail _
  · refine Action.plain_bind fun _ => ?_
    split
    · exact Action.plain_bind fun _ => plain_pure rfl
    · exact plain_pure rfl

end Accounts

open PocketUnix.Outcome (plain_ofAction plain_ofTree plain_ofSystem)

/-- The commands on files that only look, and `cd`, answer plainly. -/
theorem Files.plain_run {command : FileCommand} (h : (Command.files command).treeWork? = none) :
    (run command c m).Plain := by
  cases command
  case basename => exact PathNames.plain_basename c
  case cd => exact plain_cd c m
  case chattr | lsattr | pwd | whereis | which => exact plain_ok rfl
  case dirname => exact PathNames.plain_dirname c
  case du => exact Walk.plain_du c m
  case file => exact Listing.plain_file c m
  case find => exact Walk.plain_find c m
  case locate => exact Walk.plain_locate c m
  case ls => exact Listing.plain_ls c m
  case realpath => exact PathNames.plain_realpath c m
  case stat => exact Listing.plain_stat c m
  case tree => exact Walk.plain_tree c m
  all_goals cases h

/-- So do the commands that read text. -/
theorem Reading.plain_run {command : TextCommand} (h : (Command.text command).treeWork? = none) :
    (run command c m).Plain := by
  cases command
  case awk => exact plain_awk c m
  case cat => exact plain_cat c m
  case cut => exact plain_cut c m
  case diff => exact plain_diff c m
  case grep => exact plain_grep c m
  case head => exact plain_ends c m .head
  case tail => exact plain_ends c m .tail
  case join => exact plain_join c m
  case jq => exact plain_jq c m
  case paste => exact plain_paste c m
  case tr => exact plain_tr c
  case wc => exact plain_wc c m
  case zgrep => exact plain_ok rfl
  case column | less | more | nl | rev | sort | uniq => exact plain_filtered c m _ _
  all_goals cases h

/-- So do the commands on processes, whether they list or end them. -/
theorem Processes.plain_run (command : ProcessCommand) : (run command c m).Plain := by
  cases command
  case ps => exact plain_ok (plain_ps c m)
  case kill => exact plain_ofSystem m (plain_kill c)
  case killall => exact plain_ofSystem m (plain_killall c)
  case pkill =>
    exact plain_ofSystem m (Action.plain_bind fun _ => Action.plain_bind fun _ => plain_pure rfl)
  case pgrep => exact plain_bind fun _ => plain_ok rfl
  case crontab => exact plain_crontab c m
  all_goals exact plain_ok rfl

theorem Host.plain_run (command : HostCommand) : (run command c m).Plain := by
  cases command
  case date => exact plain_date c
  case hostname => exact plain_ofSystem m (plain_hostname c)
  case uname => exact plain_ok (plain_uname c m)
  case free => exact plain_ok (plain_free c)
  all_goals exact plain_ok rfl

theorem Net.plain_run {command : NetworkCommand} (h : (Command.network command).treeWork? = none) :
    (run command c m).Plain := by
  cases command
  case ping =>
    simp only [run]
    split
    · exact plain_error _
    · exact plain_ok rfl
  case ssh => exact plain_error _
  case curl | wget => cases h
  all_goals exact plain_ok rfl

/-- So do the commands on users and groups. -/
theorem Accounts.plain_run (command : UserCommand) : (run command c m).Plain := by
  cases command
  case su => exact plain_ofSystem m (Action.plain_bind fun _ => plain_pure rfl)
  case passwd => exact plain_passwd c m
  case id => exact plain_id c m
  case groups => exact plain_groups c m
  case useradd => exact plain_ofAction m (plain_useradd c m)
  case userdel => exact plain_ofAction m (plain_userdel c)
  case groupadd => exact plain_ofSystem m (plain_groupadd c)
  case usermod => exact plain_ofSystem m (plain_usermod c)
  all_goals first
    | exact plain_ok rfl
    | exact plain_error _

theorem Archive.plain_run {command : ArchiveCommand}
    (h : (Command.archive command).treeWork? = none) : (run command c m).Plain := by
  cases command
  case unzip => exact plain_unzip c m
  case rsync | cpio | dd => exact plain_ok rfl
  all_goals cases h

theorem Disk.plain_run (command : DiskCommand) : (run command c m).Plain := by
  cases command
  case df => exact plain_ok (plain_df c)
  case mount => exact plain_mount c m rfl
  case umount => exact plain_mount c m rfl
  all_goals exact plain_ok rfl

namespace Command

variable {c m} {r : Reply} {request : EditRequest}

/-- Only the commands of the session ask for anything. -/
theorem plain_runPlain {command : Command} (h : ∀ k, command ≠ .session k) :
    (runPlain command c m).Plain := by
  cases hwork : command.treeWork? with
  | some work =>
    rw [runPlain_of_treeWork c m hwork]
    exact plain_ofTree m (plain_of_treeWork c m hwork)
  | none =>
    cases command with
    | files k => exact Files.plain_run c m hwork
    | text k => exact Reading.plain_run c m hwork
    | process k => exact Processes.plain_run c m k
    | host k => exact Host.plain_run c m k
    | network k => exact Net.plain_run c m hwork
    | users k => exact Accounts.plain_run c m k
    | archive k => exact Archive.plain_run c m hwork
    | disk k => exact Disk.plain_run c m k
    | session k => exact absurd rfl (h k)

/-- Whatever asks for the editor has had it opened for its operand. -/
theorem openEditor_of_runPlain {command : Command} (h : (runPlain command c m).answer = .ok r)
    (hr : r.effect = some (.edit request)) : Desk.openEditor c m = .ok r := by
  by_cases hsession : ∃ k, command = .session k
  · obtain ⟨k, rfl⟩ := hsession
    cases k
    case vim | vi | nano => exact h
    all_goals
      cases h
      cases hr
  · have hplain : r.Plain := plain_runPlain (fun k hk => hsession ⟨k, hk⟩) r h
    rw [(Reply.plain_iff.mp hplain).1] at hr
    cases hr

/-- Words that come to no command ask for nothing. -/
theorem Idle.plain {words : List String} {answer : Answer} (h : Idle words answer) :
    answer.Plain := by
  cases h with
  | nothing | started | niceness => exact plain_ok rfl
  | locked | unknown | unasked => exact plain_error _

/-- The editor that a command line asks for has been opened for the operand of its job. -/
theorem Runs.openEditor {x : Context} {words : List String} {o : Outcome} (h : Runs x words m o)
    (ho : o.answer = .ok r) (hr : r.effect = some (.edit request)) :
    ∃ j r', job? x words m = some j ∧ Desk.openEditor j.call j.machine = .ok r' ∧
      r'.effect = some (.edit request) := by
  induction h generalizing r with
  | plain hn hsudo hnice =>
    rw [job?_plain hn hsudo hnice]
    exact ⟨_, r, rfl, openEditor_of_runPlain ho hr, hr⟩
  | idle _ h =>
    have hplain : r.Plain := h.plain r ho
    rw [(Reply.plain_iff.mp hplain).1] at hr
    cases hr
  | refused => cases ho
  | raised h hroot _ ih =>
    obtain ⟨inner, hinner, rfl⟩ := Plan.map_eq_ok_iff.mp ho
    rw [job?_raised h hroot]
    exact ih hinner hr
  | passed h _ ih =>
    rw [job?_passed h]
    exact ih ho hr

/-- The editor is opened with a word of information, if with any. -/
theorem isAnswer_of_openEditor (h : Desk.openEditor c m = .ok r) : r.tone.isAnswer = true := by
  unfold Desk.openEditor at h
  split at h
  · cases h
    rfl
  · dsimp only at h
    split at h <;> cases h <;> rfl

/-- Also what the commands of the session ask for is told in the tone of an answer. -/
theorem isAnswer_of_runPlain {command : Command} (h : (runPlain command c m).answer = .ok r) :
    r.tone.isAnswer = true := by
  by_cases hsession : ∃ k, command = .session k
  · obtain ⟨k, rfl⟩ := hsession
    cases k
    case vim | vi | nano => exact isAnswer_of_openEditor h
    all_goals
      cases h
      rfl
  · have hplain : r.Plain := plain_runPlain (fun k hk => hsession ⟨k, hk⟩) r h
    exact (Reply.plain_iff.mp hplain).2

/-- The reply of a command line is shown as output or as information. -/
theorem Runs.isAnswer {x : Context} {words : List String} {o : Outcome} (h : Runs x words m o)
    (ho : o.answer = .ok r) : r.tone.isAnswer = true := by
  induction h generalizing r with
  | plain => exact isAnswer_of_runPlain ho
  | idle _ h =>
    have hplain : r.Plain := h.plain r ho
    exact (Reply.plain_iff.mp hplain).2
  | refused => cases ho
  | raised _ _ _ ih =>
    obtain ⟨inner, hinner, rfl⟩ := Plan.map_eq_ok_iff.mp ho
    have htone : inner.tone.isAnswer = true := ih hinner
    exact htone
  | passed _ _ ih => exact ih ho

end Command

end PocketUnix
