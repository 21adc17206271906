import Mathlib.Data.List.Induction
import PocketUnix.Command.Accounts
import PocketUnix.Proofs.Command.Call

/-!
# Changing users and groups

`useradd`, `userdel`, `groupadd` and `su` do all of their work or none of it. `usermod` lets a user
join groups one after the other, and a group that is not known stops it half way.
-/

namespace PocketUnix

open PocketUnix.Action (KeepsOnFault)

namespace User

def BelongsTo (user : User) (group : String) : Prop :=
  user.group = group ∨ group ∈ user.extraGroups

instance (user : User) (group : String) : Decidable (user.BelongsTo group) :=
  inferInstanceAs (Decidable (_ ∨ _))

/-- The user as a member of one more group. -/
def joining (user : User) (group : String) : User :=
  if user.BelongsTo group then user
  else { user with extraGroups := user.extraGroups ++ [group] }

/-- Who joins a group is in it, and in whatever he was in before. -/
theorem belongsTo_joining (user : User) (group other : String) :
    (user.joining group).BelongsTo other ↔ user.BelongsTo other ∨ other = group := by
  unfold joining
  split
  · next h =>
    constructor
    · exact .inl
    · rintro (ho | rfl)
      · exact ho
      · exact h
  · simp only [BelongsTo, List.mem_append, List.mem_singleton]
    exact or_assoc.symm

theorem belongsTo_foldl_joining (user : User) (groups : List String) (other : String) :
    (groups.foldl joining user).BelongsTo other ↔ user.BelongsTo other ∨ other ∈ groups := by
  induction groups generalizing user with
  | nil => simp
  | cons group groups ih =>
    rw [List.foldl_cons, ih, belongsTo_joining, List.mem_cons]
    exact or_assoc

/-- Joining changes a user only if there is a group to join. -/
theorem foldl_joining_eq_iff (user : User) (groups : List String) :
    groups.foldl joining user = user ↔ ∀ g ∈ groups, user.BelongsTo g := by
  constructor
  · intro h g hg
    rw [← h, belongsTo_foldl_joining]
    exact .inr hg
  · intro h
    induction groups with
    | nil => rfl
    | cons group groups ih =>
      rw [List.forall_mem_cons] at h
      rw [List.foldl_cons, joining, if_pos h.1]
      exact ih h.2

end User

namespace System

theorem joinGroup_eq (s : System) (name : String) (user : User) (group : String) :
    s.joinGroup name user group =
      if user.BelongsTo group then s
      else { s with users := Table.insert name (user.joining group) s.users } := by
  by_cases h : user.BelongsTo group
  · rw [if_pos h]
    exact if_pos h
  · rw [if_neg h, User.joining, if_neg h]
    exact if_neg h

end System

namespace Accounts

/-- What joining groups makes of the tables: only the entry of the user is another one. -/
structure Joined (name : String) (user : User) (groups : List String) (s t : System) : Prop where
  users_only : ∃ users, t = { s with users }
  user_eq : t.user? name = some (groups.foldl User.joining user)
  other_eq : ∀ other, other ≠ name → t.user? other = s.user? other
  eq_of_belongs : (∀ g ∈ groups, user.BelongsTo g) → t = s

theorem joined_nil {name : String} {user : User} {s : System} (h : s.user? name = some user) :
    Joined name user [] s s where
  users_only := ⟨s.users, rfl⟩
  user_eq := h
  other_eq _ _ := rfl
  eq_of_belongs _ := rfl

/-- One group more: the entry that was made of the user joins it as well. -/
theorem Joined.concat {name : String} {user : User} {groups : List String} {s t : System}
    (h : Joined name user groups s t) (group : String) :
    Joined name user (groups ++ [group]) s
      (t.joinGroup name (groups.foldl User.joining user) group) := by
  rw [System.joinGroup_eq]
  constructor
  case users_only =>
    obtain ⟨users, rfl⟩ := h.users_only
    split
    · exact ⟨users, rfl⟩
    · exact ⟨_, rfl⟩
  case user_eq =>
    rw [List.foldl_append, List.foldl_cons, List.foldl_nil]
    split
    · next hb => rw [h.user_eq, User.joining, if_pos hb]
    · simp [System.user?, Table.get?_insert]
  case other_eq =>
    intro other hne
    rw [← h.other_eq other hne]
    split
    · rfl
    · simp [System.user?, Table.get?_insert, hne.symm]
  case eq_of_belongs =>
    intro hb
    rw [List.forall_mem_append] at hb
    have hsame := (User.foldl_joining_eq_iff user groups).mpr hb.1
    rw [hsame, if_pos (hb.2 group List.mem_cons_self), h.eq_of_belongs hb.1]

theorem join_known {s : System} {name group : String} {user : User}
    (hgroup : s.hasGroup group = true) (huser : s.user? name = some user) :
    join name group s = .ok () (s.joinGroup name user group) :=
  Action.update_ok (by simp [hgroup, huser])

theorem join_unknown {s : System} {name group : String} (hgroup : s.hasGroup group = false) :
    join name group s = .error (.notFound (.group "usermod" group)) s :=
  Action.update_error (by simp [hgroup])

theorem join_no_user {s : System} {name group : String} (hgroup : s.hasGroup group = true)
    (huser : s.user? name = none) :
    join name group s = .error (.notFound (.user "usermod" name)) s :=
  Action.update_error (by simp [hgroup, huser])

theorem Joined.hasGroup_eq {name : String} {user : User} {groups : List String} {s t : System}
    (h : Joined name user groups s t) (group : String) : t.hasGroup group = s.hasGroup group := by
  obtain ⟨users, rfl⟩ := h.users_only
  rfl

/-- Groups that are known are joined without fault. -/
theorem forM_join_known {s : System} {name : String} {user : User} {groups : List String}
    (huser : s.user? name = some user) (hgroups : ∀ g ∈ groups, s.hasGroup g = true) :
    ∃ t, groups.forM (join name) s = .ok () t ∧ Joined name user groups s t := by
  induction groups using List.reverseRecOn with
  | nil => exact ⟨s, rfl, joined_nil huser⟩
  | append_singleton groups group ih =>
    rw [List.forall_mem_append] at hgroups
    obtain ⟨t, ht, hjoined⟩ := ih hgroups.1
    refine ⟨_, ?_, hjoined.concat group⟩
    rw [Action.forM_concat, ht]
    refine join_known ?_ hjoined.user_eq
    rw [hjoined.hasGroup_eq, hgroups.2 group List.mem_cons_self]

/-- A group that is not known ends the run, behind those that have been joined. -/
theorem forM_join_half {s : System} {name : String} {user : User} {known : List String}
    {unknown : String} (huser : s.user? name = some user)
    (hknown : ∀ g ∈ known, s.hasGroup g = true) (hunknown : s.hasGroup unknown = false)
    (rest : List String) : ∃ t,
      (known ++ unknown :: rest).forM (join name) s =
        .error (.notFound (.group "usermod" unknown)) t ∧ Joined name user known s t := by
  obtain ⟨t, ht, hjoined⟩ := forM_join_known huser hknown
  refine ⟨t, ?_, hjoined⟩
  rw [Action.forM_append, ht]
  simp only [Action.forM_cons]
  rw [join_unknown (by rw [hjoined.hasGroup_eq, hunknown])]

theorem forM_join_no_user {s : System} {name : String} (huser : s.user? name = none)
    (groups : List String) : KeepsOnFault (groups.forM (join name)) s := by
  refine Action.keepsOnFault_forM_of_still fun group _ => .inr ?_
  cases hgroup : s.hasGroup group with
  | true => exact ⟨_, join_no_user hgroup huser⟩
  | false => exact ⟨_, join_unknown hgroup⟩

/-- Groups are all known, or there is a first one that is not. -/
theorem known_or_unknown (s : System) (groups : List String) :
    (∀ g ∈ groups, s.hasGroup g = true) ∨ ∃ known unknown rest,
      groups = known ++ unknown :: rest ∧ (∀ g ∈ known, s.hasGroup g = true) ∧
        s.hasGroup unknown = false := by
  induction groups with
  | nil => exact .inl (by simp)
  | cons group groups ih =>
    cases hgroup : s.hasGroup group with
    | false => exact .inr ⟨[], group, groups, rfl, by simp, hgroup⟩
    | true =>
      rcases ih with hall | ⟨known, unknown, rest, rfl, hknown, hunknown⟩
      · exact .inl (List.forall_mem_cons.mpr ⟨hgroup, hall⟩)
      · exact .inr ⟨group :: known, unknown, rest, rfl,
          List.forall_mem_cons.mpr ⟨hgroup, hknown⟩, hunknown⟩

/-- The groups that an option names. -/
def listed (list : String) : List String := (Text.splitOn list ',').filter (· != "")

/-- The arguments ask for a group that is not known, behind a known one that is new to the user. -/
def HalfJoins (s : System) (args : List String) : Prop :=
  ∃ list name user known unknown rest,
    (Shell.Options.ofArgs "Gg" args).value? 'G' = some list ∧
    (Shell.Options.ofArgs "Gg" args).operand? 0 = some name ∧
    s.user? name = some user ∧ listed list = known ++ unknown :: rest ∧
    (∀ g ∈ known, s.hasGroup g = true) ∧ s.hasGroup unknown = false ∧
    ∃ g ∈ known, ¬user.BelongsTo g

theorem usermod_eq {c : Call} {list name : String}
    (hlist : (c.options "Gg").value? 'G' = some list)
    (hname : (c.options "Gg").operand? 0 = some name) :
    usermod c = do
      (listed list).forM (join name)
      return .empty := by
  simp only [usermod, hlist, hname]
  rfl

/-- Such a call fails, and not before it has changed something. -/
theorem usermod_half {c : Call} {s : System} (h : HalfJoins s c.args) :
    ∃ fault t, usermod c s = .error fault t ∧ t ≠ s := by
  obtain ⟨list, name, user, known, unknown, rest, hlist, hname, huser, hsplit, hknown, hunknown,
    g, hg, hnew⟩ := h
  obtain ⟨t, ht, hjoined⟩ := forM_join_half huser hknown hunknown rest
  refine ⟨.notFound (.group "usermod" unknown), t, ?_, ?_⟩
  · rw [usermod_eq hlist hname, Action.bind_apply, hsplit, ht]
  · rintro rfl
    have hsame : known.foldl User.joining user = user :=
      Option.some.inj (hjoined.user_eq.symm.trans huser)
    exact hnew ((User.foldl_joining_eq_iff user known).mp hsame g hg)

/-- A failing `usermod` leaves a change behind exactly if it has joined some of the groups. -/
theorem usermod_error {c : Call} {s t : System} {fault : Fault}
    (h : usermod c s = .error fault t) :
    (∃ users, t = { s with users }) ∧ (t = s ↔ ¬HalfJoins s c.args) := by
  have hhalf : t = s → ¬HalfJoins s c.args := by
    rintro rfl hj
    obtain ⟨fault', t', ht', hne⟩ := usermod_half hj
    rw [h] at ht'
    cases ht'
    exact hne rfl
  have hkept : t = s → (∃ users, t = { s with users }) ∧ (t = s ↔ ¬HalfJoins s c.args) :=
    fun he => ⟨⟨s.users, he⟩, hhalf, fun _ => he⟩
  cases hlist : (c.options "Gg").value? 'G' with
  | none =>
    simp only [usermod, hlist, Action.fail_apply] at h
    cases h
    exact hkept rfl
  | some list =>
    cases hname : (c.options "Gg").operand? 0 with
    | none =>
      simp only [usermod, hlist, hname, Action.fail_apply] at h
      cases h
      exact hkept rfl
    | some name =>
      cases huser : s.user? name with
      | none =>
        rw [usermod_eq hlist hname] at h
        exact hkept (KeepsOnFault.bind_pure (forM_join_no_user huser _) _ _ _ h)
      | some user =>
        have hrun := h
        rw [usermod_eq hlist hname, Action.bind_apply] at hrun
        rcases known_or_unknown s (listed list) with
          hall | ⟨known, unknown, rest, hsplit, hknown, hunknown⟩
        · obtain ⟨t', ht', -⟩ := forM_join_known huser hall
          rw [ht'] at hrun
          cases hrun
        · obtain ⟨t', ht', hjoined⟩ := forM_join_half huser hknown hunknown rest
          rw [hsplit, ht'] at hrun
          cases hrun
          refine ⟨hjoined.users_only, hhalf, fun hj => hjoined.eq_of_belongs fun g hg => ?_⟩
          by_contra hnew
          exact hj ⟨list, name, user, known, unknown, rest, hlist, hname, huser, hsplit, hknown,
            hunknown, g, hg, hnew⟩

theorem keepsOnFault_su (c : Call) (s : System) : KeepsOnFault (su c) s :=
  KeepsOnFault.bind_pure (Action.keepsOnFault_update _ s) fun _ => Reply.empty

theorem keepsOnFault_groupadd (c : Call) (s : System) : KeepsOnFault (groupadd c) s := by
  unfold groupadd
  split
  · exact Action.keepsOnFault_fail _ s
  · exact KeepsOnFault.bind_pure (Action.keepsOnFault_update _ s) fun _ => Reply.empty

/-- Where homes can be made, making one does not fail. -/
theorem succeeds_makeHome {root : Node} {name : String}
    (h : root.isDirectoryAt (Path.home name).dropLast = true) (now : DateTime) :
    Action.Succeeds (makeHome name now) root := by
  by_cases hc : root.contains (Path.home name) = true
  · exact ⟨(), root, Action.update_ok (by simp [hc])⟩
  · obtain ⟨root', hi⟩ := Node.exists_insert h (.newDirectory name name name now)
    exact ⟨(), root', Action.update_ok (by simp [hc, hi])⟩

/-- The name is tried before it is entered, and the place of the home before that. -/
theorem keepsOnFault_useradd (c : Call) (m : Machine) : KeepsOnFault (useradd c m) m := by
  unfold useradd
  dsimp only
  split
  · exact Action.keepsOnFault_fail _ m
  · next name _ =>
    split
    · exact Action.keepsOnFault_fail _ m
    · next hhome =>
      refine (Action.keepsOnFault_onSystem (Action.keepsOnFault_update _ _)).bind fun _ m' h => ?_
      split
      · next hm =>
        have hparent : m'.root.isDirectoryAt (Path.home name).dropLast = true := by
          rw [Action.root_of_onSystem h]
          simpa [hm] using hhome
        exact (succeeds_makeHome hparent c.now).onTree.bind_pure fun _ => Reply.empty
      · exact Action.succeeds_pure Reply.empty m'

/-- What stands at a home can be removed. -/
theorem succeeds_removeHome (root : Node) (name : String) :
    Action.Succeeds (removeHome name) root := by
  cases hn : root.get? (Path.home name) with
  | none => exact ⟨(), root, by simp [removeHome, Node.contains, hn]⟩
  | some n =>
    obtain ⟨rest, hr⟩ : ∃ rest, root.remove (Path.home name) = .ok (n, rest) :=
      ⟨_, Node.remove_eq_ok_iff.mpr ⟨["home"], name, rfl, hn, rfl⟩⟩
    refine ⟨(), rest, ?_⟩
    simp only [removeHome, Node.contains, hn, Option.isSome_some, if_true, Action.discard_apply]
    rw [Node.removeFor_ok hr]

/-- The user is looked up first, and what stands at a home can be removed. -/
theorem keepsOnFault_userdel (c : Call) (m : Machine) : KeepsOnFault (userdel c) m := by
  unfold userdel
  dsimp only
  split
  · exact Action.keepsOnFault_fail _ m
  · next name _ =>
    refine (Action.keepsOnFault_onSystem (Action.keepsOnFault_update _ _)).bind fun _ m' h => ?_
    split
    · exact (succeeds_removeHome m'.root name).onTree.bind_pure fun _ => Reply.empty
    · exact Action.succeeds_pure Reply.empty m'

end Accounts

end PocketUnix
