import PocketUnix.Proofs.Command.Relays
import PocketUnix.Proofs.Sample

/-!
# Running commands as the superuser

`sudo` runs any command under another user and then gives the machine back to its caller. That can
fail in one way only: the command has removed the caller.
-/

namespace PocketUnix

open PocketUnix.System (Keeps)

namespace Command

/-- The user whom the words ask to remove, also behind `sudo` and `nice`. -/
def removed? (words : List String) : Option String :=
  match innermost words with
  | [] => none
  | name :: args =>
    match ofName? name with
    | some (.users .userdel) => (Shell.Options.ofArgs "" args).operand? 0
    | _ => none

section Words

variable {words : List String} {e : Errand} {name : String} {args : List String} {command : Command}

theorem removed?_of_handedOn (h : handedOn? words = some e) : removed? words = removed? e.words := by
  rw [removed?, innermost_of_handedOn h, removed?]

theorem removed?_userdel (hn : ofName? name = some (.users .userdel)) :
    removed? (name :: args) = (Shell.Options.ofArgs "" args).operand? 0 := by
  simp only [removed?, innermost_of_not_handedOn (handedOn?_of_name hn nofun nofun), hn]

theorem removed?_of_ne_userdel (h : handedOn? (name :: args) = none)
    (hdel : ofName? name ≠ some (.users .userdel)) : removed? (name :: args) = none := by
  simp only [removed?, innermost_of_not_handedOn h]

/-- Words that come to no command ask for no user to be removed. -/
theorem removed?_of_idle {answer : Answer} (hnone : handedOn? words = none)
    (h : Idle words answer) : removed? words = none := by
  cases words with
  | nil => rw [removed?, innermost_of_not_handedOn hnone]
  | cons name args =>
    refine removed?_of_ne_userdel hnone fun hdel => ?_
    obtain hsudo | hnice := h.relay_of_name hdel
    · cases hsudo
    · cases hnice

end Words

theorem handBack_known {caller : String} {inner : Outcome}
    (h : inner.machine.system.hasUser caller = true) :
    (handBack caller inner).machine = inner.machine.withUser caller := by
  simp only [handBack, System.switchUser?, h, if_true, Option.getD_some]
  rfl

theorem handBack_unknown {caller : String} {inner : Outcome}
    (h : inner.machine.system.hasUser caller = false) :
    (handBack caller inner).machine = inner.machine := by
  simp [handBack, System.switchUser?, h]

theorem hasUser_handBack (caller : String) (inner : Outcome) (name : String) :
    (handBack caller inner).machine.system.hasUser name = inner.machine.system.hasUser name := by
  cases h : inner.machine.system.hasUser caller with
  | true =>
    rw [handBack_known h]
    rfl
  | false => rw [handBack_unknown h]

/-- Giving the machine back loses nobody: the caller has it only if he is still known. -/
theorem keeps_handBack {lost : Option String} (caller : String) (inner : Outcome) :
    inner.machine.Keeps lost (handBack caller inner).machine := by
  refine ⟨fun name _ hn => by rw [hasUser_handBack, hn], fun hk => ?_⟩
  cases h : inner.machine.system.hasUser caller with
  | true =>
    rw [handBack_known h]
    exact h
  | false =>
    rw [handBack_unknown h]
    exact hk

/-- A command line loses no user but the one whom it asks to remove. -/
theorem Runs.keeps {x : Context} {words : List String} {m : Machine} {o : Outcome}
    (h : Runs x words m o) : o.Keeps (removed? words) m := by
  induction h with
  | @plain name args m command hn hsudo hnice =>
    by_cases hc : command = .users .userdel
    · subst hc
      rw [removed?_userdel hn]
      exact Outcome.keeps_ofAction (Accounts.within_userdel (x.call name args)) m
    · exact keeps_runPlain _ m hc
  | idle | refused => exact Outcome.keeps_of_system_eq rfl
  | @raised words inner m o h hroot hinner ih =>
    rw [removed?_of_handedOn h]
    have hswitch : m.Keeps (removed? inner) (m.withUser System.superuser) :=
      System.keeps_switchUser (System.switchUser?_eq_some_iff.mpr ⟨hroot, rfl⟩)
    exact trans_of (Machine.Keeps _) (trans_of (Machine.Keeps _) hswitch ih) (keeps_handBack _ _)
  | passed h _ ih =>
    rw [removed?_of_handedOn h]
    exact ih

theorem keeps_run (x : Context) (words : List String) (m : Machine) :
    (run x words m).Keeps (removed? words) m := (runs_run x words m).keeps

/-- Removing a user lets the same one work on, and leaves none of that name if he is another. -/
theorem after_userdel {c : Call} {m : Machine} {name : String}
    (hop : (c.options "").operand? 0 = some name) :
    ((Accounts.userdel c).after m).user = m.user ∧
      (name ≠ m.user → ((Accounts.userdel c).after m).system.hasUser name = false) := by
  by_cases hc : name = m.system.currentUser
  · have hremove : Accounts.removeUser name m.system =
        .error (.invalid (.userInUse name)) m.system := Action.update_error (by simp [hc])
    simp only [Accounts.userdel, hop, Action.after_bind, Action.onSystem, hremove]
    exact ⟨trivial, fun hne => absurd hc hne⟩
  · cases hn : m.system.hasUser name with
    | false =>
      have hremove : Accounts.removeUser name m.system =
          .error (.notFound (.user "userdel" name)) m.system :=
        Action.update_error (by simp [hc, hn])
      simp only [Accounts.userdel, hop, Action.after_bind, Action.onSystem, hremove]
      exact ⟨trivial, fun _ => hn⟩
    | true =>
      have hremove : Accounts.removeUser name m.system = .ok () (m.system.removeUser name) :=
        Action.update_ok (by simp [hc, hn])
      have hgone : (m.system.removeUser name).hasUser name = false := by
        simp [System.hasUser_removeUser]
      simp only [Accounts.userdel, hop, Action.after_bind, Action.onSystem, hremove]
      split
      · rw [Action.after_bind_pure, Action.after_onTree]
        exact ⟨rfl, fun _ => hgone⟩
      · exact ⟨rfl, fun _ => hgone⟩

/-- The superuser loses the user whom a command line asks to remove, unless that is himself. -/
theorem Runs.removed {x : Context} {words : List String} {m : Machine} {o : Outcome} {name : String}
    (h : Runs x words m o) (hw : removed? words = some name) (hroot : m.user = System.superuser)
    (hknown : m.system.Known) :
    o.machine.user = System.superuser ∧
      (name ≠ System.superuser → o.machine.system.hasUser name = false) := by
  induction h with
  | @plain name' args m command hn hsudo hnice =>
    by_cases hc : command = .users .userdel
    · subst hc
      rw [removed?_userdel hn] at hw
      rw [runPlain, Accounts.run, Outcome.machine_ofAction, ← hroot]
      exact after_userdel hw
    · have hne : ofName? name' ≠ some (.users .userdel) :=
        fun he => hc (Option.some.inj (hn.symm.trans he))
      cases hw.symm.trans (removed?_of_ne_userdel (handedOn?_of_name hn hsudo hnice) hne)
  | idle hnone h => cases hw.symm.trans (removed?_of_idle hnone h)
  | @refused words inner m _ hnone =>
    have hsuper : m.system.hasUser m.user = true := hknown
    rw [hroot, hnone] at hsuper
    cases hsuper
  | @raised words inner m o h hsuper hinner ih =>
    rw [removed?_of_handedOn h] at hw
    obtain ⟨huser, hgone⟩ := ih hw rfl hsuper
    have hback : o.machine.system.hasUser o.machine.user = true := hinner.keeps.known hsuper
    rw [huser] at hback
    refine ⟨?_, fun hne => by rw [hasUser_handBack]; exact hgone hne⟩
    rw [hroot, handBack_known hback]
    rfl
  | passed h _ ih =>
    rw [removed?_of_handedOn h] at hw
    exact ih hw hroot hknown

/-- Behind the prompt `sudo` answers what its command answers to the superuser. It hands back to
the caller the machine that the command leaves, unless the command has removed the caller. -/
theorem run_sudo (x : Context) {first : String} {rest : List String} {m : Machine}
    (hroot : m.system.hasUser System.superuser = true)
    (hfirst : Text.startsWith first "-" = false) :
    let inner := run x (first :: rest) (m.withUser System.superuser)
    let outer := run x ("sudo" :: first :: rest) m
    let prompt := "[sudo] password for " ++ m.user ++ ": "
    outer.answer = inner.answer.map (fun r =>
        { r with text := if r.text = "" then prompt else prompt ++ "\n" ++ r.text }) ∧
      (inner.machine.system.hasUser m.user = true →
        outer.machine = inner.machine.withUser m.user) ∧
      (inner.machine.system.hasUser m.user = false → outer.machine = inner.machine) ∧
      (m.system.Known → outer.machine.user =
        if removed? (first :: rest) = some m.user then System.superuser else m.user) := by
  intro inner outer prompt
  have hswitch : m.system.switchUser? System.superuser =
      some { m.system with currentUser := System.superuser } :=
    System.switchUser?_eq_some_iff.mpr ⟨hroot, rfl⟩
  have hrun : outer = handBack m.user inner := by
    have hmanager : "sudo" ∉ packageManagers := by decide
    have hinterpreter : "sudo" ∉ interpreters := by decide
    have hname : ofName? "sudo" = some (.users .sudo) := by decide
    rw [show outer = _ from run.eq_def x ("sudo" :: first :: rest) m]
    simp only [hmanager, hinterpreter, hname, hfirst, hswitch, Bool.false_eq_true, if_false]
    rfl
  have hback : inner.machine.system.hasUser m.user = true →
      outer.machine = inner.machine.withUser m.user := fun h => hrun ▸ handBack_known h
  have hleft : inner.machine.system.hasUser m.user = false → outer.machine = inner.machine :=
    fun h => hrun ▸ handBack_unknown h
  refine ⟨by rw [hrun]; rfl, hback, hleft, fun hknown => ?_⟩
  split
  · next hremoved =>
    obtain ⟨huser, hgone⟩ : inner.machine.user = System.superuser ∧
        (m.user ≠ System.superuser → inner.machine.system.hasUser m.user = false) :=
      (runs_run x (first :: rest) (m.withUser System.superuser)).removed hremoved rfl hroot
    cases hm : inner.machine.system.hasUser m.user with
    | false => rw [hleft hm, huser]
    | true =>
      rw [hback hm]
      by_cases he : m.user = System.superuser
      · exact he
      · rw [hgone he] at hm
        cases hm
  · next hkept =>
    have hkeeps : (m.withUser System.superuser).Keeps (removed? (first :: rest)) inner.machine :=
      keeps_run x (first :: rest) (m.withUser System.superuser)
    rw [hback (hkeeps.hasUser m.user hkept hknown)]
    rfl

/-- Not even `su` takes the caller off his machine. -/
theorem run_sudo_su :
    Sample.machine.system.hasUser System.superuser = true ∧ Text.startsWith "su" "-" = false ∧
      (run Sample.context ["sudo", "su"] Sample.machine).machine.user = Sample.machine.user := by
  have hroot : Sample.machine.system.hasUser System.superuser = true := by decide +kernel
  have hfirst : Text.startsWith "su" "-" = false := by decide
  have hknown : Sample.machine.system.Known := by unfold System.Known; decide +kernel
  have hkept : ¬removed? ["su"] = some Sample.machine.user := by decide +kernel
  refine ⟨hroot, hfirst, ?_⟩
  rw [(run_sudo Sample.context hroot hfirst).2.2.2 hknown, if_neg hkept]

/-- A caller who has himself removed does not come back. -/
theorem run_sudo_userdel :
    Sample.machine.system.hasUser System.superuser = true ∧
      Text.startsWith "userdel" "-" = false ∧
      (run Sample.context ["sudo", "userdel", "user"] Sample.machine).machine ≠
        (run Sample.context ["userdel", "user"]
          (Sample.machine.withUser System.superuser)).machine.withUser Sample.machine.user := by
  refine ⟨by decide +kernel, by decide, fun h => ?_⟩
  have huser := congrArg Machine.user h
  revert huser
  decide +kernel

end Command

end PocketUnix
