import PocketUnix.Proofs.Session.SoundSessions
import PocketUnix.Proofs.Tree.Walks

/-!
# Nodes that can be named

What is displayed of a path is read as that path, as long as all names on it can be read. Names that
are read from paths can be; a session that makes up no other ones keeps every node within reach.
Names are made up by links, by files that are compressed or expanded, and for users.
-/

namespace PocketUnix

open PocketUnix.Command (job?)
open PocketUnix.Node (Sound WellFormed)
open PocketUnix.Path (IsName Named named_resolve)

namespace Node

variable {root n : Node} {P Q : String → Prop} {p : Path}

/-- What all listed nodes have in their names, all names on their paths have. -/
theorem Sound.named_of_descendants (h : Sound P root)
    (hall : ∀ x ∈ root.descendants [], Q x.2.name) (hn : root.get? p = some n) : p.Named Q := by
  induction p using Path.childInduction generalizing n with
  | root => exact fun _ hname => absurd hname List.not_mem_nil
  | child parent name ih =>
    have hlisted : (parent.child name, n) ∈ root.descendants [] :=
      h.mem_descendants.mpr ⟨Path.child_ne_nil parent name, hn⟩
    have hname : n.name = name := (h.wellFormed.name_eq hn).1
    have hparent : root.isDirectoryAt parent = true :=
      isDirectoryAt_of_child (by rw [contains, hn, Option.isSome_some])
    obtain ⟨d, hd, -⟩ := exists_of_isDirectoryAt hparent
    exact Path.named_child.mpr ⟨ih hd, hname ▸ hall _ hlisted⟩

/-- All listed paths can be read just if all listed nodes have names that can be. -/
theorem Sound.nameable_iff (h : Sound P root) :
    (∀ x ∈ root.descendants [], ∀ cwd user, Path.resolve cwd user x.1.display = x.1) ↔
      ∀ x ∈ root.descendants [], IsName x.2.name := by
  constructor
  · rintro hread ⟨p, n⟩ hx
    obtain ⟨hne, hn⟩ := h.mem_descendants.mp hx
    obtain ⟨parent, name, rfl⟩ := Path.exists_eq_child hne
    have huser : IsName "user" := by decide
    have hnamed : Named IsName (Path.resolve [] "user" (parent.child name).display) :=
      named_resolve (fun _ hname => absurd hname List.not_mem_nil) huser _
    rw [hread _ hx] at hnamed
    rw [(h.wellFormed.name_eq hn).1]
    exact hnamed.last
  · rintro hall ⟨p, n⟩ hx cwd user
    have hn := (h.mem_descendants.mp hx).2
    exact Path.resolve_display (h.named_of_descendants hall hn) cwd user

/-- Links lead to paths that are read, from directories on the way. -/
theorem named_followLinks {user : String} (huser : IsName user) {fuel : Nat} {q : Path}
    (hp : p.Named IsName) (h : root.followLinks user fuel p = some q) : q.Named IsName := by
  induction fuel generalizing p with
  | zero =>
    unfold followLinks at h
    split at h
    · cases h
    · cases h
    · cases h
      exact hp
  | succ fuel ih =>
    unfold followLinks at h
    split at h
    · cases h
    · refine ih (named_resolve ?_ huser _) h
      by_cases hne : p = []
      · subst hne
        exact hp
      · obtain ⟨parent, name, rfl⟩ := Path.exists_eq_child hne
        rw [Path.parent?_child, Option.getD_some]
        exact (Path.named_child.mp hp).1
    · cases h
      exact hp

end Node

/-- All names that paths are put together from can be read: those in the tree, those on the way to
the working directory, and those of the users, whose homes a tilde stands for. -/
structure Machine.Proper (m : Machine) : Prop where
  tree : Sound IsName m.root
  users : ∀ name, m.system.hasUser name = true → IsName name
  known : m.system.Known
  cwd : m.cwd.Named IsName

namespace Machine.Proper

variable {m : Machine} {x : Context} {words : List String}

theorem user (h : m.Proper) : IsName m.user := h.users m.user h.known

theorem reads (h : m.Proper) : m.Reads IsName := named_resolve h.cwd h.user

theorem job (h : m.Proper) {j : Job} (hj : job? x words m = some j) : j.machine.Proper := by
  rcases Command.machine_of_job hj with hm | ⟨hroot, hm⟩
  · rwa [hm]
  · rw [hm]
    exact ⟨h.tree, h.users, hroot, h.cwd⟩

/-- A job adds no users but those whom it names. -/
theorem users_outcome {j : Job} (h : j.machine.Proper) (hnames : ∀ name, j.Coins name → IsName name)
    {name : String} (hn : j.outcome.machine.system.hasUser name = true) : IsName name := by
  obtain ⟨command, c, m⟩ := j
  have hsteps : m.system.Steps IsName (fun _ => True)
      (Command.runPlain command c m).machine.system := by
    refine Command.steps_runPlain m (fun hadd name hname => ?_) fun _ _ _ => trivial
    subst hadd
    exact hnames name (.user hname)
  have hkeeps := hsteps.keeps (I := fun s => ∀ name, s.hasUser name = true → IsName name)
    (fun s t hstep hs name ht => (System.hasUser_of_step hstep ht).elim (hs name) id) h.users
  exact hkeeps name hn

/-- Whoever goes to a directory goes to a path that is read. -/
theorem cwd_outcome {j : Job} (h : j.machine.Proper) : j.outcome.machine.cwd.Named IsName := by
  obtain ⟨command, c, m⟩ := j
  by_cases hcd : command = .files .cd
  · subst hcd
    rcases Command.machine_cd c m with hm | ⟨-, hm⟩
    · rw [Job.outcome, hm]
      exact h.cwd
    · rw [Job.outcome, hm]
      exact h.reads _
  · rw [Job.outcome, Command.cwd_runPlain c m hcd]
    exact h.cwd

/-- A command line leaves a proper machine behind if its job makes up proper names only. -/
theorem run (h : m.Proper)
    (hnames : ∀ j, job? x words m = some j → ∀ name, j.Coins name → IsName name) :
    (Command.run x words m).machine.Proper where
  tree := Command.sound_run h.tree fun j hj => ⟨(h.job hj).reads, hnames j hj⟩
  known := (Command.keeps_run x words m).known h.known
  users name hn := by
    obtain ⟨user, hrun⟩ := Command.exists_user_run x words m
    rw [hrun] at hn
    cases hj : job? x words m with
    | none =>
      rw [hj] at hn
      exact h.users name hn
    | some j =>
      rw [hj] at hn
      exact (h.job hj).users_outcome (hnames j hj) hn
  cwd := by
    obtain ⟨user, hrun⟩ := Command.exists_user_run x words m
    rw [hrun]
    cases hj : job? x words m with
    | none => exact h.cwd
    | some j => exact (h.job hj).cwd_outcome

/-- The editor is opened for a path that was read, or for one to which links lead from there. -/
theorem target {c : Call} (h : m.Proper) {r : Reply} {request : EditRequest} {p : Path}
    (hopen : Desk.openEditor c m = .ok r) (hr : r.effect = some (.edit request))
    (hp : request.target = some p) : p.Named IsName := by
  unfold Desk.openEditor at hopen
  split at hopen
  · cases hopen
    cases hr
    cases hp
  · next operand _ =>
    have htarget : ((m.root.resolveLinks m.user (m.resolve operand)).getD
        (m.resolve operand)).Named IsName := by
      cases hlinks : m.root.resolveLinks m.user (m.resolve operand) with
      | none => exact h.reads operand
      | some q => exact Node.named_followLinks h.user (h.reads operand) hlinks
    dsimp only at hopen
    split at hopen <;> cases hopen
    all_goals
      cases hr
      cases hp
      exact htarget

end Machine.Proper

namespace Seed

theorem isName_of_users {name : String} (h : Table.contains users name = true) : IsName name := by
  obtain ⟨user, hu⟩ := Option.isSome_iff_exists.mp h
  have hall : ∀ e ∈ users, IsName e.1 := by decide
  exact hall _ (Table.mem_of_get? hu)

/-- All names at the start can be read. -/
theorem proper_machine {now : DateTime} {config : Config} {m : Machine}
    (h : machine now config = .ok m) : m.Proper := by
  unfold machine at h
  split at h
  · cases h
  · next hknown =>
    cases h
    have huser : Table.contains users config.user = true := by simpa using hknown
    refine ⟨sound_root now config.hostname, fun _ => isName_of_users, huser, ?_⟩
    have hroot : Named IsName [] := fun _ hname => absurd hname List.not_mem_nil
    have hhome : (Path.home config.user).Named IsName := Path.named_home (isName_of_users huser)
    dsimp only
    split
    · split
      · exact hhome
      · exact hroot
    · exact hroot

end Seed

namespace Session

/-- Jobs that make up proper names only, and all that is saved, leave proper machines behind. -/
theorem invariant_proper :
    Invariant (fun j => ∀ name, j.Coins name → IsName name) Machine.Proper (Named IsName) where
  run _ _ _ hm hjobs := hm.run hjobs
  edit _ _ _ _ _ _ _ hm hj hopen hr hp := (hm.job hj).target hopen hr hp
  read _ text hm := hm.reads text
  save _ _ _ _ _ hm hp hw := ⟨hm.tree.store hp hw, hm.users, hm.known, hm.cwd⟩

theorem proper_after {config : Config} {clock : Clock} {s : Session}
    (hstart : start config clock = .ok s) {events : List Event}
    (hnames : ∀ j ∈ s.jobs events, ∀ name, j.Coins name → IsName name) :
    (s.after events).machine.Proper := by
  obtain ⟨hseed, heditor⟩ := seed_of_start hstart
  have hs : Holds Machine.Proper (Named IsName) s :=
    ⟨Seed.proper_machine hseed, fun e he => by rw [heditor] at he; cases he⟩
  exact (invariant_proper.after hs hnames).machine

/-- Whatever is done in a session, each listed node is found at its path, and the paths can all be
read from the way they are displayed just if the nodes have names that can be read. They have, if no
name is made up on the way that cannot be read. -/
theorem nameable_after {config : Config} {clock : Clock} {s : Session}
    (hstart : start config clock = .ok s) (events : List Event) :
    let root := (s.after events).machine.root
    (∀ x ∈ root.descendants [], root.get? x.1 = some x.2) ∧
      ((∀ x ∈ root.descendants [], ∀ cwd user, Path.resolve cwd user x.1.display = x.1) ↔
        ∀ x ∈ root.descendants [], IsName x.2.name) ∧
      ((∀ j ∈ s.jobs events, ∀ name, j.Coins name → IsName name) →
        ∀ x ∈ root.descendants [], ∀ cwd user, Path.resolve cwd user x.1.display = x.1) := by
  have hs : Sound (fun _ => True) (s.after events).machine.root := sound_after hstart events
  refine ⟨fun x hx => (hs.mem_descendants.mp hx).2, hs.nameable_iff, fun hnames x hx cwd user => ?_⟩
  have hproper := (proper_after hstart hnames).tree
  exact Path.resolve_display (hproper.wellFormed.named (hproper.mem_descendants.mp hx).2) cwd user

/-- A line of one stage comes to at most one job. -/
theorem jobs_line {s : Session} {text stage : String} (hediting : s.isEditing = false)
    (hparts : Shell.parts '|' (Text.trim text) = [stage]) : s.jobs [.line text] =
      (job? ⟨"", s.clock.now, s.submitted⟩ (Shell.words stage) s.machine).toList := by
  simp only [jobs, Event.jobs, lineJobs, hediting, Evaluation.jobs, hparts, Evaluation.stageJobs]
  simp only [List.length_singleton, Nat.lt_irrefl, decide_false, Bool.false_and,
    Bool.false_eq_true, if_false, List.append_nil]
  split
  · exact List.append_nil _
  · exact List.append_nil _

/-- A file is named by its suffix and its stem, but nobody can name it once the stem is a dot. -/
theorem nameable_after_suffix :
    (∀ x ∈ (Sample.session.after [.line "gzip data.csv"]).machine.root.descendants [],
        ∀ cwd user, Path.resolve cwd user x.1.display = x.1) ∧
      ¬∀ x ∈ (Sample.session.after [.line "touch ..gz", .line "gunzip ..gz"]).machine.root.descendants
        [], ∀ cwd user, Path.resolve cwd user x.1.display = x.1 := by
  constructor
  · refine (nameable_after Sample.start_session [.line "gzip data.csv"]).2.2 fun j hj name hname => ?_
    have hparts : Shell.parts '|' (Text.trim "gzip data.csv") = ["gzip data.csv"] := by
      decide +kernel
    have hwords : Shell.words "gzip data.csv" = ["gzip", "data.csv"] := by decide +kernel
    have hjob : job? ⟨"", Sample.session.clock.now, Sample.session.submitted⟩ ["gzip", "data.csv"]
        Sample.session.machine =
          some ⟨.archive .gzip, Sample.context.call "gzip" ["data.csv"], Sample.machine⟩ :=
      Command.job?_plain rfl (by simp) (by simp)
    have hplan : Archive.planAll (Sample.context.call "gzip" ["data.csv"]) Sample.machine ".gz"
        .compress ["data.csv"] =
          .ok [⟨"data.csv", ["home", "user", "data.csv"], ["home", "user"], "data.csv.gz"⟩] := by
      decide +kernel
    have hdirection : Archive.recompression? .gzip (Sample.context.call "gzip" ["data.csv"]) =
        some (".gz", .compress) := by decide +kernel
    have hoperands : ((Sample.context.call "gzip" ["data.csv"]).options "").operands =
        ["data.csv"] := by decide +kernel
    rw [jobs_line rfl hparts, hwords, hjob] at hj
    cases List.mem_singleton.mp hj
    cases hname with
    | renamed h hr =>
      obtain ⟨suffix, direction, hsame, hplan'⟩ := h
      cases hdirection.symm.trans hsame
      rw [hoperands] at hplan'
      cases hplan.symm.trans hplan'
      cases List.mem_singleton.mp hr
      decide
  · rw [(nameable_after Sample.start_session _).2.1]
    intro hall
    have hdot : (Sample.session.after [.line "touch ..gz", .line "gunzip ..gz"]).machine.root.contains
        ["home", "user", "."] = true := by decide +kernel
    obtain ⟨n, hn⟩ := Option.isSome_iff_exists.mp hdot
    have hs := sound_after Sample.start_session [.line "touch ..gz", .line "gunzip ..gz"]
    have hnamed := hs.named_of_descendants hall hn
    exact (hnamed "." (by simp)).2.1 rfl

end Session

end PocketUnix
