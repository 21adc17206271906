import PocketUnix.Proofs.Command.Names
import PocketUnix.Proofs.Command.Users

/-!
# Commands that run another one

`sudo` hands its words on to the superuser, and `nice` hands on the words behind its priority. What
a command line comes to behind all of them is its errand. Whatever is said of command lines is read
off there: which command is run and on whose behalf, whom it removes, whether its name is known.
A run goes down to the errand one relay at a time.
-/

namespace PocketUnix

/-- The machine with another user working on it. -/
def Machine.withUser (name : String) (m : Machine) : Machine :=
  { m with system := { m.system with currentUser := name } }

namespace Command

/-- The commands that run another one. -/
def relays : List String := ["sudo", "nice"]

/-- Words to be run, by the superuser if they are raised. -/
structure Errand where
  raised : Bool
  words : List String

/-- The words that `nice` runs: those behind its priority. -/
def behindPriority : List String → List String
  | [] => []
  | "-n" :: _ :: words => words
  | first :: rest => if Text.startsWith first "-" then rest else first :: rest

/-- What a command line hands on at once. `sudo` does not take options, and where no words are left
there is nothing to be handed on. -/
def handedOn? : List String → Option Errand
  | "sudo" :: first :: rest =>
    if Text.startsWith first "-" then none else some ⟨true, first :: rest⟩
  | "nice" :: args =>
    if (behindPriority args).isEmpty then none else some ⟨false, behindPriority args⟩
  | _ => none

theorem length_behindPriority (args : List String) :
    (behindPriority args).length ≤ args.length := by
  fun_cases behindPriority args with
  | case1 => exact Nat.le_refl _
  | case2 value words => exact Nat.le_add_right words.length 2
  | case3 first rest => exact Nat.le_succ _
  | case4 first rest => exact Nat.le_refl _

/-- Words are handed on by the one or the other relay, each in its own way. -/
theorem handedOn?_eq_some_iff {words : List String} {e : Errand} :
    handedOn? words = some e ↔
      (∃ first rest, words = "sudo" :: first :: rest ∧ Text.startsWith first "-" = false ∧
        e = ⟨true, first :: rest⟩) ∨
      ∃ args, words = "nice" :: args ∧ behindPriority args ≠ [] ∧
        e = ⟨false, behindPriority args⟩ := by
  constructor
  · intro h
    unfold handedOn? at h
    split at h
    · next first rest =>
      split at h
      · cases h
      · next hf =>
        cases h
        exact .inl ⟨first, rest, rfl, Bool.not_eq_true _ ▸ hf, rfl⟩
    · next args =>
      split at h
      · cases h
      · next hsome =>
        cases h
        exact .inr ⟨args, rfl, mt List.isEmpty_iff.mpr hsome, rfl⟩
    · cases h
  · rintro (⟨first, rest, rfl, hf, rfl⟩ | ⟨args, rfl, hsome, rfl⟩)
    · simp [handedOn?, hf]
    · simp [handedOn?, hsome]

theorem length_handedOn? {words : List String} {e : Errand} (h : handedOn? words = some e) :
    e.words.length < words.length := by
  obtain ⟨first, rest, rfl, -, rfl⟩ | ⟨args, rfl, -, rfl⟩ := handedOn?_eq_some_iff.mp h
  · exact Nat.lt_succ_self _
  · exact Nat.lt_succ_of_le (length_behindPriority args)

/-- What a command line comes to behind all `sudo` and `nice`. -/
def errand (words : List String) : Errand :=
  match _h : handedOn? words with
  | none => ⟨false, words⟩
  | some e =>
    let inner := errand e.words
    ⟨e.raised || inner.raised, inner.words⟩
termination_by words.length
decreasing_by exact length_handedOn? ‹_›

/-- The words behind all `sudo` and `nice`. -/
def innermost (words : List String) : List String := (errand words).words

section Errands

variable {name : String} {args words inner : List String} {e : Errand} {command : Command}

/-- What has been raised once stays raised, whichever relays follow. -/
theorem errand_of_handedOn (h : handedOn? words = some e) :
    errand words = ⟨e.raised || (errand e.words).raised, (errand e.words).words⟩ := by
  rw [errand.eq_def]
  split
  · next hnone => cases h.symm.trans hnone
  · next e' hsome =>
    cases h.symm.trans hsome
    rfl

theorem errand_of_not_handedOn (h : handedOn? words = none) : errand words = ⟨false, words⟩ := by
  rw [errand.eq_def]
  split
  · rfl
  · next hsome => cases h.symm.trans hsome

/-- `nice` hands an errand on as it is. -/
theorem errand_passed (h : handedOn? words = some ⟨false, inner⟩) : errand words = errand inner := by
  rw [errand_of_handedOn h]
  rfl

/-- The innermost words are those of what is handed on. -/
theorem innermost_of_handedOn (h : handedOn? words = some e) :
    innermost words = innermost e.words := by
  rw [innermost, errand_of_handedOn h, innermost]

theorem innermost_of_not_handedOn (h : handedOn? words = none) : innermost words = words := by
  rw [innermost, errand_of_not_handedOn h]

theorem mem_relays_of_handedOn (h : handedOn? (name :: args) = some e) : name ∈ relays := by
  obtain ⟨_, _, hw, -⟩ | ⟨_, hw, -⟩ := handedOn?_eq_some_iff.mp h
  · cases hw
    decide
  · cases hw
    decide

/-- No command but the relays hands anything on. -/
theorem handedOn?_of_not_relay (h : name ∉ relays) : handedOn? (name :: args) = none :=
  Option.eq_none_iff_forall_ne_some.mpr fun _ hsome => h (mem_relays_of_handedOn hsome)

theorem handedOn?_of_unnamed (hn : ofName? name = none) : handedOn? (name :: args) = none := by
  have hrelays : ∀ n ∈ relays, ofName? n ≠ none := by decide
  exact handedOn?_of_not_relay fun h => hrelays name h hn

/-- A command that is no relay has its words to itself. -/
theorem handedOn?_of_name (hn : ofName? name = some command) (hsudo : command ≠ .users .sudo)
    (hnice : command ≠ .process .nice) : handedOn? (name :: args) = none := by
  refine handedOn?_of_not_relay fun h => ?_
  have hrelays : ofName? "sudo" = some (.users .sudo) ∧ ofName? "nice" = some (.process .nice) := by
    decide
  obtain rfl | rfl : name = "sudo" ∨ name = "nice" := by simpa [relays] using h
  · exact hsudo (Option.some.inj (hn.symm.trans hrelays.1))
  · exact hnice (Option.some.inj (hn.symm.trans hrelays.2))

end Errands

/-- What is answered to words that come to no command, the machine being left as it is. -/
inductive Idle : List String → Answer → Prop
  | nothing : Idle [] (.ok .empty)
  | locked {name : String} {args : List String} (h : name ∈ packageManagers) :
    Idle (name :: args) (.error (.restricted .packageLock))
  | started {name : String} {args : List String} (h : name ∈ interpreters) (text : String) :
    Idle (name :: args) (.ok (.info text))
  | unknown {name : String} {args : List String} (h : Unknown name) :
    Idle (name :: args) (.error (.unsupported name))
  | unasked (args : List String) :
    Idle ("sudo" :: args) (.error (.usage (.synopsis "usage: sudo command")))
  | niceness (args : List String) : Idle ("nice" :: args) (.ok (.output "0"))

/-- Words that come to no command may still name a relay. -/
theorem Idle.relay_of_name {name : String} {args : List String} {answer : Answer}
    {command : Command} (h : Idle (name :: args) answer) (hn : ofName? name = some command) :
    command = .users .sudo ∨ command = .process .nice := by
  cases h with
  | locked h => cases hn.symm.trans (ofName?_of_manager (.inl h))
  | started h => cases hn.symm.trans (ofName?_of_manager (.inr h))
  | unknown h => exact absurd h (not_unknown_of_name hn)
  | unasked =>
    cases hn
    exact .inl rfl
  | niceness =>
    cases hn
    exact .inr rfl

/-- How words are run: a command does its work at once, `sudo` and `nice` run what they hand on. -/
inductive Runs (x : Context) : List String → Machine → Outcome → Prop
  | plain {name : String} {args : List String} {m : Machine} {command : Command}
    (hn : ofName? name = some command) (hsudo : command ≠ .users .sudo)
    (hnice : command ≠ .process .nice) :
    Runs x (name :: args) m (runPlain command (x.call name args) m)
  | idle {words : List String} {m : Machine} {answer : Answer}
    (hnone : handedOn? words = none) (h : Idle words answer) : Runs x words m ⟨answer, m⟩
  | refused {words inner : List String} {m : Machine} (h : handedOn? words = some ⟨true, inner⟩)
    (hroot : m.system.hasUser System.superuser = false) :
    Runs x words m (.fail m (.notFound (.loginUser System.superuser)))
  | raised {words inner : List String} {m : Machine} {o : Outcome}
    (h : handedOn? words = some ⟨true, inner⟩)
    (hroot : m.system.hasUser System.superuser = true)
    (hinner : Runs x inner (m.withUser System.superuser) o) : Runs x words m (handBack m.user o)
  | passed {words inner : List String} {m : Machine} {o : Outcome}
    (h : handedOn? words = some ⟨false, inner⟩) (hinner : Runs x inner m o) : Runs x words m o

/-- Every run is one of these. -/
theorem runs_run (x : Context) (words : List String) (m : Machine) :
    Runs x words m (run x words m) := by
  fun_induction run x words m
  case case1 => exact .idle rfl .nothing
  case case2 h =>
    exact .idle (handedOn?_of_unnamed (ofName?_of_manager (.inl h))) (.locked h)
  case case3 h =>
    exact .idle (handedOn?_of_unnamed (ofName?_of_manager (.inr h))) (.started h _)
  case case4 hmanager hinterpreter hn =>
    have hunknown : Unknown _ := ⟨ofName?_eq_none_iff.mp hn, hmanager, hinterpreter⟩
    exact .idle (handedOn?_of_unnamed hn) (.unknown hunknown)
  case case5 hn =>
    obtain rfl := eq_sudo_of_name hn
    exact .idle rfl (.unasked [])
  case case6 hn first rest hf =>
    obtain rfl := eq_sudo_of_name hn
    exact .idle (by simp [handedOn?, hf]) (.unasked _)
  case case7 hn first rest hf hs =>
    obtain rfl := eq_sudo_of_name hn
    have hhanded : handedOn? ("sudo" :: first :: rest) = some ⟨true, first :: rest⟩ := by
      simp [handedOn?, hf]
    exact .refused hhanded (by simpa [System.switchUser?] using hs)
  case case8 hn first rest hf system hs ih =>
    obtain rfl := eq_sudo_of_name hn
    obtain ⟨hroot, rfl⟩ := System.switchUser?_eq_some_iff.mp hs
    exact .raised (by simp [handedOn?, hf]) hroot ih
  case case9 hn =>
    obtain rfl := eq_nice_of_name hn
    exact .idle rfl (.niceness _)
  case case10 hn =>
    obtain rfl := eq_nice_of_name hn
    exact .idle rfl (.niceness _)
  case case11 hn _ _ hnone =>
    obtain rfl := eq_nice_of_name hn
    exact .idle (by simp [handedOn?, behindPriority, hnone]) (.niceness _)
  case case12 hn _ words hsome ih =>
    obtain rfl := eq_nice_of_name hn
    exact .passed (by simp [handedOn?, behindPriority, hsome]) ih
  case case13 hn _ _ hv hf hnone =>
    obtain rfl := eq_nice_of_name hn
    exact .idle (by simp [handedOn?, behindPriority, *]) (.niceness _)
  case case14 hn _ _ hv hf _ ih =>
    obtain rfl := eq_nice_of_name hn
    exact .passed (by simp [handedOn?, behindPriority, *]) ih
  case case15 hn _ _ hv hf ih =>
    obtain rfl := eq_nice_of_name hn
    exact .passed (by simp [handedOn?, behindPriority, *]) ih
  case case16 hsudo hnice hn => exact .plain hn hsudo hnice

end Command

end PocketUnix
