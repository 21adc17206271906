import PocketUnix.Proofs.Session.SoundSessions
import PocketUnix.Proofs.Table

/-!
# Consistent tables

Whatever users and groups come and go, no two users share an id and no two groups do, since a new
id lies above all regular ids that are taken. A user is only ever put into groups that are there,
once into each of them, and no group ever goes. Processes go one by one and never come.
-/

namespace PocketUnix

namespace System

variable {taken : List Nat} {id : Nat}

theorem firstRegularId_le_nextId (taken : List Nat) : firstRegularId ≤ nextId taken := by
  unfold nextId
  cases h : (taken.filter (firstRegularId ≤ ·)).max? with
  | none => exact Nat.le_refl _
  | some largest =>
    have hlargest := List.max?_mem h
    have hregular : firstRegularId ≤ largest := by simpa using (List.mem_filter.mp hlargest).2
    exact Nat.le_succ_of_le hregular

/-- The next id lies above every regular one that is taken. -/
theorem lt_nextId (h : id ∈ taken) (hregular : firstRegularId ≤ id) : id < nextId taken := by
  have hmem : id ∈ taken.filter (firstRegularId ≤ ·) := by simp [h, hregular]
  unfold nextId
  cases hmax : (taken.filter (firstRegularId ≤ ·)).max? with
  | none =>
    rw [List.max?_eq_none_iff.mp hmax] at hmem
    cases hmem
  | some largest =>
    have hle : id ≤ largest := (List.max?_eq_some_iff.mp hmax).2 id hmem
    exact Nat.lt_succ_of_le hle

/-- Ids from the next one on are free. -/
theorem not_mem_of_nextId_le (h : nextId taken ≤ id) : id ∉ taken := by
  intro hmem
  have hregular : firstRegularId ≤ id := Nat.le_trans (firstRegularId_le_nextId taken) h
  have hlt := lt_nextId hmem hregular
  omega

end System

namespace Table

variable {α : Type} {f : α → Nat} {t : Table α} {name : String} {value old : α}

/-- The values under two names differ in `f`. -/
def Distinct (f : α → Nat) (t : Table α) : Prop :=
  ∀ a b x y, get? a t = some x → get? b t = some y → f x = f y → a = b

theorem distinct_of_forall_mem (h : ∀ a ∈ t, ∀ b ∈ t, f a.2 = f b.2 → a.1 = b.1) :
    Distinct f t := by
  intro a b x y hx hy hxy
  exact h _ (mem_of_get? hx) _ (mem_of_get? hy) hxy

/-- No value of the table has the id of one that is put under a name of its own. -/
theorem ne_of_not_mem (hnew : f value ∉ t.map (f ·.2)) {other : String} {x : α}
    (hx : get? other t = some x) : f x ≠ f value := by
  intro hsame
  have hmem : f x ∈ t.map (f ·.2) := List.mem_map.mpr ⟨_, mem_of_get? hx, rfl⟩
  exact hnew (hsame ▸ hmem)

/-- A value may come in if its id differs from those under all other names. -/
theorem Distinct.insert_of_ne (h : Distinct f t)
    (hne : ∀ other x, other ≠ name → get? other t = some x → f x ≠ f value) :
    Distinct f (insert name value t) := by
  intro a b x y hx hy hxy
  rw [get?_insert] at hx hy
  by_cases ha : name = a <;> by_cases hb : name = b
  · rw [← ha, ← hb]
  · simp only [ha, if_true, Option.some.injEq] at hx
    simp only [hb, if_false] at hy
    exact absurd (hx ▸ hxy.symm) (hne b y (Ne.symm hb) hy)
  · simp only [hb, if_true, Option.some.injEq] at hy
    simp only [ha, if_false] at hx
    exact absurd (hy ▸ hxy) (hne a x (Ne.symm ha) hx)
  · simp only [ha, hb, if_false] at hx hy
    exact h a b x y hx hy hxy

/-- A value with a free id may come in. -/
theorem Distinct.insert (h : Distinct f t) (hnew : f value ∉ t.map (f ·.2)) :
    Distinct f (insert name value t) :=
  h.insert_of_ne fun _ _ _ hx => ne_of_not_mem hnew hx

/-- A value may be changed where its id stays. -/
theorem Distinct.update (h : Distinct f t) (hold : get? name t = some old)
    (hf : f value = f old) : Distinct f (Table.insert name value t) := by
  refine h.insert_of_ne fun other x hne hx hsame => ?_
  exact hne (h other name x old hx hold (hsame.trans hf))

/-- A value may go, whatever its id. -/
theorem Distinct.erase (h : Distinct f t) (name : String) : Distinct f (erase name t) := by
  intro a b x y hx hy hxy
  rw [get?_erase] at hx hy
  by_cases ha : name = a
  · simp [ha] at hx
  · by_cases hb : name = b
    · simp [hb] at hy
    · simp only [ha, hb, if_false] at hx hy
      exact h a b x y hx hy hxy

end Table

/-- All groups of the user are groups of the system, each of them once. -/
structure User.Grouped (s : System) (user : User) : Prop where
  primary : s.hasGroup user.group = true
  extra : ∀ group ∈ user.extraGroups, s.hasGroup group = true
  nodup : user.extraGroups.Nodup
  primary_not_mem : user.group ∉ user.extraGroups

theorem User.Grouped.mono {s t : System} {user : User} (h : user.Grouped s)
    (hgroups : ∀ group, s.hasGroup group = true → t.hasGroup group = true) : user.Grouped t where
  primary := hgroups _ h.primary
  extra group hg := hgroups group (h.extra group hg)
  nodup := h.nodup
  primary_not_mem := h.primary_not_mem

/-- A user in one group that is there. -/
theorem User.grouped_of_hasGroup {s : System} {name : String} (h : s.hasGroup name = true)
    (uid : Nat) : User.Grouped s ⟨uid, name, []⟩ where
  primary := h
  extra := nofun
  nodup := List.nodup_nil
  primary_not_mem := nofun

namespace System

open PocketUnix.Table (Distinct)

/-- Ids tell users apart and groups apart, users are in groups that are there, and all processes
have been there from the start. -/
structure Consistent (s : System) : Prop where
  uids : Distinct User.uid s.users
  gids : Distinct (fun gid => gid) s.groups
  grouped : ∀ name user, s.user? name = some user → user.Grouped s
  processes : s.processes.Sublist Seed.processes

variable {s t : System} {name group : String} {user : User}

theorem hasGroup_of_insert {gid : Nat} (hg : t.groups = Table.insert name gid s.groups)
    (h : s.hasGroup group = true) : t.hasGroup group = true := by
  rw [hasGroup, hg, Table.contains_insert, Bool.or_eq_true]
  exact .inr h

/-- A new user gets the next id. The group of the same name is there, or comes with a free id. -/
theorem addUser?_eq_some (h : s.addUser? name = some t) :
    t.users = Table.insert name ⟨nextId (s.users.map (·.2.uid)), name, []⟩ s.users ∧
      t.processes = s.processes ∧
      (t.groups = s.groups ∧ s.hasGroup name = true ∨
        ∃ gid, nextId (s.groups.map (·.2)) ≤ gid ∧ t.groups = Table.insert name gid s.groups) := by
  unfold addUser? at h
  split at h
  · cases h
  · cases h
    refine ⟨rfl, rfl, ?_⟩
    by_cases hown : s.hasGroup name = true
    · exact .inl ⟨if_pos hown, hown⟩
    · exact .inr ⟨_, Nat.le_max_left _ _, if_neg hown⟩

namespace Consistent

/-- Who works on the machine may change, and its name; processes may go. -/
theorem of_tables (h : s.Consistent) (hu : t.users = s.users) (hg : t.groups = s.groups)
    (hp : t.processes.Sublist s.processes) : t.Consistent where
  uids := hu ▸ h.uids
  gids := hg ▸ h.gids
  grouped name user hn := by
    have hs : s.user? name = some user := by rw [user?, ← hu]; exact hn
    refine (h.grouped name user hs).mono fun group hgroup => ?_
    rw [hasGroup, hg]
    exact hgroup
  processes := hp.trans h.processes

/-- A user of existing groups may come in or be changed. -/
theorem of_insert (h : s.Consistent) (hu : t.users = Table.insert name user s.users)
    (huids : Distinct User.uid t.users) (hgids : Distinct (fun gid => gid) t.groups)
    (hgroups : ∀ group, s.hasGroup group = true → t.hasGroup group = true)
    (huser : user.Grouped t) (hp : t.processes = s.processes) : t.Consistent where
  uids := huids
  gids := hgids
  grouped other found hn := by
    rw [user?, hu, Table.get?_insert] at hn
    by_cases hname : name = other
    · rw [if_pos hname, Option.some.injEq] at hn
      exact hn ▸ huser
    · rw [if_neg hname] at hn
      exact (h.grouped other found hn).mono hgroups
  processes := hp ▸ h.processes

/-- A new user has an id of his own, and so has his group if it comes with him. -/
theorem addUser (h : s.Consistent) (hadd : s.addUser? name = some t) : t.Consistent := by
  obtain ⟨husers, hprocesses, hgroups⟩ := addUser?_eq_some hadd
  have huids : Distinct User.uid t.users := by
    rw [husers]
    exact h.uids.insert (not_mem_of_nextId_le (Nat.le_refl _))
  rcases hgroups with ⟨hsame, hown⟩ | ⟨gid, hgid, hinsert⟩
  · have hkept : ∀ group, s.hasGroup group = true → t.hasGroup group = true := by
      intro group hg
      rw [hasGroup, hsame]
      exact hg
    have huser := User.grouped_of_hasGroup (hkept name hown)
    exact h.of_insert husers huids (hsame ▸ h.gids) hkept (huser _) hprocesses
  · have hgids : Distinct (fun gid => gid) t.groups := by
      rw [hinsert]
      exact h.gids.insert (not_mem_of_nextId_le hgid)
    have hown : t.hasGroup name = true := by simp [hasGroup, hinsert, Table.contains_insert]
    have hkept : ∀ group, s.hasGroup group = true → t.hasGroup group = true :=
      fun _ => hasGroup_of_insert hinsert
    have huser := User.grouped_of_hasGroup hown
    exact h.of_insert husers huids hgids hkept (huser _) hprocesses

/-- A user may go, and leaves his group behind. -/
theorem removeUser (h : s.Consistent) (name : String) : (s.removeUser name).Consistent where
  uids := h.uids.erase name
  gids := h.gids
  grouped other user hn := by
    rw [user?, System.removeUser, Table.get?_erase] at hn
    split at hn
    · cases hn
    · exact (h.grouped other user hn).mono fun _ hg => hg
  processes := h.processes

/-- A new group has an id of its own. -/
theorem addGroup (h : s.Consistent) (hadd : s.addGroup? name = some t) : t.Consistent := by
  unfold addGroup? at hadd
  split at hadd
  · cases hadd
  · cases hadd
    refine ⟨h.uids, h.gids.insert ?_, fun other user hn => ?_, h.processes⟩
    · exact not_mem_of_nextId_le (Nat.le_refl _)
    · exact (h.grouped other user hn).mono fun group hg => hasGroup_of_insert rfl hg

/-- A user may join a group that is there. If he is in it he does not join it again. -/
theorem joinGroup (h : s.Consistent) (hu : s.user? name = some user)
    (hg : s.hasGroup group = true) : (s.joinGroup name user group).Consistent := by
  have hold := h.grouped name user hu
  unfold System.joinGroup
  split
  · exact h
  · next hnew =>
    obtain ⟨hprimary, hextra⟩ := not_or.mp hnew
    refine h.of_insert rfl (h.uids.update hu rfl) h.gids (fun _ hg => hg) ?_ rfl
    refine ⟨hold.primary, ?_, ?_, ?_⟩
    · intro other ho
      rcases List.mem_append.mp ho with ho | ho
      · exact hold.extra other ho
      · exact List.mem_singleton.mp ho ▸ hg
    · exact List.nodup_append.mpr ⟨hold.nodup, by simp, by grind⟩
    · simp [hold.primary_not_mem, hprimary]

/-- Every step keeps the tables consistent. -/
theorem step {new old : String → Prop} (hstep : Step new old s t) (h : s.Consistent) :
    t.Consistent := by
  cases hstep with
  | switch hs =>
    obtain ⟨-, rfl⟩ := switchUser?_eq_some_iff.mp hs
    exact h.of_tables rfl rfl (.refl _)
  | addUser _ hadd => exact h.addUser hadd
  | removeUser _ _ => exact h.removeUser _
  | addGroup hadd => exact h.addGroup hadd
  | join hu hg => exact h.joinGroup hu hg
  | rename _ => exact h.of_tables rfl rfl (.refl _)
  | kill hk =>
    unfold kill? at hk
    split at hk
    · cases hk
      exact h.of_tables rfl rfl List.eraseP_sublist
    · cases hk
  | killWhere p =>
    refine h.of_tables rfl rfl ?_
    simp only [killWhere, List.partition_eq_filter_filter]
    exact List.filter_sublist

end Consistent

end System

/-- What the steps of the tables keep, whoever works on the machine, a command line keeps. -/
theorem Command.keeps_run_of_step {I : System → Prop}
    (step : ∀ s t, System.Step (fun _ => True) (fun _ => True) s t → I s → I t)
    (switch : ∀ s name, I s → I { s with currentUser := name }) (x : Context)
    (words : List String) {m : Machine} (h : I m.system) : I (run x words m).machine.system := by
  obtain ⟨user, hrun⟩ := exists_user_run x words m
  rw [hrun]
  apply switch
  cases hj : job? x words m with
  | none => exact h
  | some j =>
    have hstart : I j.machine.system := by
      rcases machine_of_job hj with hm | ⟨-, hm⟩
      · rwa [hm]
      · rw [hm]
        exact switch _ _ h
    have hsteps : j.machine.Steps (fun _ => True) (fun _ => True) j.outcome.machine :=
      steps_runPlain j.machine (fun _ _ _ => trivial) fun _ _ _ => trivial
    exact System.Steps.keeps hsteps step hstart

/-- The tables at the start, and who works on the machine then. -/
theorem Seed.consistent_machine {now : DateTime} {config : Config} {m : Machine}
    (h : machine now config = .ok m) : m.system.Consistent ∧ m.system.Known := by
  unfold machine at h
  split at h
  · cases h
  · next hknown =>
    cases h
    have hgrouped : ∀ e ∈ users, Table.contains groups e.2.group = true ∧
        (∀ group ∈ e.2.extraGroups, Table.contains groups group = true) ∧
        e.2.extraGroups.Nodup ∧ e.2.group ∉ e.2.extraGroups := by decide
    have huser : Table.contains users config.user = true := by simpa using hknown
    have huids : Table.Distinct User.uid users := Table.distinct_of_forall_mem (by decide)
    have hgids : Table.Distinct (fun gid => gid) groups := Table.distinct_of_forall_mem (by decide)
    refine ⟨⟨huids, hgids, fun name user hu => ?_, .refl _⟩, huser⟩
    obtain ⟨hprimary, hextra, hnodup, hnot⟩ := hgrouped _ (Table.mem_of_get? hu)
    exact ⟨hprimary, hextra, hnodup, hnot⟩

namespace Session

/-- The tables stay consistent, and who works on the machine stays one of its users. -/
theorem invariant_consistent :
    Invariant (fun _ => True) (fun m => m.system.Consistent ∧ m.system.Known) fun _ => True where
  run x words m hm _ :=
    ⟨Command.keeps_run_of_step (fun _ _ => System.Consistent.step)
      (fun _ _ h => h.of_tables rfl rfl (.refl _)) x words hm.1,
      (Command.keeps_run x words m).known hm.2⟩
  edit _ _ _ _ _ _ _ _ _ _ _ _ := trivial
  read _ _ _ := trivial
  save _ _ _ _ _ hm _ _ := hm

/-- Whatever is done in a session, who works on the machine is one of its users; no two users have
one uid and no two groups one gid; the groups of a user are all there, each of them is named once,
and the primary one is not among the others; and the processes are some of those at the start, in
their order, with a pid for each. Ids are numbers without a bound. -/
theorem consistent_after {config : Config} {clock : Clock} {s : Session}
    (hstart : start config clock = .ok s) (events : List Event) :
    let system := (s.after events).machine.system
    system.hasUser system.currentUser = true ∧
      (∀ a b u v, system.user? a = some u → system.user? b = some v → u.uid = v.uid → a = b) ∧
      (∀ a b gid, system.gid? a = some gid → system.gid? b = some gid → a = b) ∧
      (∀ name u, system.user? name = some u → system.hasGroup u.group = true ∧
        (∀ group ∈ u.extraGroups, system.hasGroup group = true) ∧
        u.extraGroups.Nodup ∧ u.group ∉ u.extraGroups) ∧
      system.processes.Sublist Seed.processes ∧ (system.processes.map (·.pid)).Nodup := by
  have hseed := Seed.consistent_machine (seed_of_start hstart).1
  have hs : Holds (fun m => m.system.Consistent ∧ m.system.Known) (fun _ => True) s :=
    ⟨hseed, fun _ _ _ _ => trivial⟩
  obtain ⟨hconsistent, hknown⟩ := (invariant_consistent.after hs fun _ _ => trivial).machine
  refine ⟨hknown, hconsistent.uids, fun a b gid ha hb => ?_, fun name u hu => ?_,
    hconsistent.processes, ?_⟩
  · exact hconsistent.gids a b gid gid ha hb rfl
  · obtain ⟨hprimary, hextra, hnodup, hnot⟩ := hconsistent.grouped name u hu
    exact ⟨hprimary, hextra, hnodup, hnot⟩
  · have hpids : (Seed.processes.map (·.pid)).Nodup := by decide
    exact hpids.sublist (hconsistent.processes.map _)

/-- A group outlives its user, and takes in the next user of that name. -/
theorem consistent_after_useradd :
    start Sample.config (.startingAt Sample.time) = .ok Sample.session ∧
      let system := (Sample.session.after [.line "useradd eve", .line "userdel eve",
        .line "groupadd dev", .line "useradd bob", .line "sudo useradd eve",
        .line "usermod -G dev,eve,sudo eve", .line "kill 1002"]).machine.system
      system.user? "eve" = some ⟨1002, "eve", ["dev", "sudo"]⟩ ∧ system.gid? "eve" = some 1001 ∧
        ∀ u, system.user? "bob" = some u → u.uid ≠ 1002 := by
  refine ⟨Sample.start_session, ?_⟩
  intro system
  have hrows : system.user? "eve" = some ⟨1002, "eve", ["dev", "sudo"]⟩ ∧
      system.gid? "eve" = some 1001 := by decide +kernel
  obtain ⟨heve, hgroup⟩ := hrows
  refine ⟨heve, hgroup, fun u hu hid => ?_⟩
  have hsame : "bob" = "eve" :=
    (consistent_after Sample.start_session _).2.1 "bob" "eve" u _ hu heve hid
  revert hsame
  decide

end Session

end PocketUnix
