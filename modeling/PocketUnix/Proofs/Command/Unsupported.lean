import PocketUnix.Proofs.Command.Faults
import PocketUnix.Proofs.Command.Frames

/-!
# Names that nothing answers to

A command line is unsupported just if its name is unknown: it is in no table, and no package manager
or interpreter has it. `sudo` and `nice` answer for what they hand on, however often that happens.
-/

namespace PocketUnix.Command

/-- The words come to a command line with an unknown name. Where they are raised on the way, there is
a superuser to find that out. -/
def Misses (superuser : Prop) (words : List String) (name : String) : Prop :=
  Unknown name ∧ (innermost words).head? = some name ∧ ((errand words).raised = true → superuser)

variable {superuser : Prop} {name n : String} {words inner args : List String}

theorem misses_passed (h : handedOn? words = some ⟨false, inner⟩) :
    Misses superuser words n ↔ Misses superuser inner n := by
  rw [Misses, Misses, innermost_of_handedOn h, errand_passed h]

/-- Behind `sudo` a name is missed by the superuser, and by nobody if there is none. -/
theorem misses_raised (h : handedOn? words = some ⟨true, inner⟩) :
    Misses superuser words n ↔ superuser ∧ Misses superuser inner n := by
  rw [Misses, Misses, innermost_of_handedOn h, errand_of_handedOn h]
  simp only [Bool.true_or, forall_const]
  constructor
  · rintro ⟨hn, hhead, hsuper⟩
    exact ⟨hsuper, hn, hhead, fun _ => hsuper⟩
  · rintro ⟨hsuper, hn, hhead, -⟩
    exact ⟨hn, hhead, hsuper⟩

theorem misses_of_not_handedOn (h : handedOn? words = none) :
    Misses superuser words n ↔ Unknown n ∧ words.head? = some n := by
  simp [Misses, innermost_of_not_handedOn h, errand_of_not_handedOn h]

theorem answer_handBack_eq_error_iff {caller : String} {inner : Outcome} {fault : Fault} :
    (handBack caller inner).answer = .error fault ↔ inner.answer = .error fault := by
  unfold handBack
  cases inner.answer <;> simp [Except.map]

/-- Words that come to no command are answered for by their name. -/
theorem Idle.unsupported_iff {answer : Answer} (h : Idle words answer) :
    answer = .error (.unsupported n) ↔ Unknown n ∧ words.head? = some n := by
  cases h with
  | nothing => exact iff_of_false nofun fun h => nomatch h.2
  | locked h =>
    refine iff_of_false nofun ?_
    rintro ⟨hunknown, hhead⟩
    cases hhead
    exact hunknown.2.1 h
  | started h =>
    refine iff_of_false nofun ?_
    rintro ⟨hunknown, hhead⟩
    cases hhead
    exact hunknown.2.2 h
  | unknown h =>
    constructor
    · intro he
      cases he
      exact ⟨h, rfl⟩
    · rintro ⟨-, hhead⟩
      cases hhead
      rfl
  | unasked | niceness =>
    refine iff_of_false nofun ?_
    rintro ⟨hunknown, hhead⟩
    cases hhead
    exact not_unknown_of_name rfl hunknown

/-- Running words tells that a name is unknown just if the words miss it. -/
theorem Runs.unsupported_iff {x : Context} {m : Machine} {o : Outcome} (h : Runs x words m o) :
    o.answer = .error (.unsupported n) ↔
      Misses (m.system.hasUser System.superuser = true) words n := by
  induction h with
  | @plain name args m command hn hsudo hnice =>
    rw [misses_of_not_handedOn (handedOn?_of_name hn hsudo hnice)]
    refine iff_of_false (fun he => nomatch handled_runPlain (x.call name args) m command _ he) ?_
    rintro ⟨hunknown, hhead⟩
    cases hhead
    exact not_unknown_of_name hn hunknown
  | idle hnone h => rw [misses_of_not_handedOn hnone, h.unsupported_iff]
  | refused h hroot =>
    rw [misses_raised h, hroot]
    simp [Outcome.fail]
  | raised h hroot _ ih =>
    rw [misses_raised h, answer_handBack_eq_error_iff, ih]
    exact (and_iff_right hroot).symm
  | passed h _ ih => rw [misses_passed h, ih]

/-- The directory is searched for the names in it and no others, each family has a command for its
names, and no command that is found calls its name unknown. So a command line is unsupported just if
nothing answers to its name; what `sudo` and `nice` hand on is so for them. -/
theorem run_unsupported (x : Context) (m : Machine) :
    (∀ name family, lookup? name = some family ↔ (name, family) ∈ directory) ∧
      (∀ name, ofName? name = (lookup? name).bind (·.command? name)) ∧
      (∀ name family, lookup? name = some family →
        ∃ command, family.command? name = some command ∧
          ∀ args m n, (runPlain command (x.call name args) m).answer ≠ .error (.unsupported n)) ∧
      (∀ name args n, name ∉ relays →
        ((run x (name :: args) m).answer = .error (.unsupported n) ↔ n = name ∧ Unknown name)) ∧
      ∀ words n, (run x words m).answer = .error (.unsupported n) ↔
        Misses (m.system.hasUser System.superuser = true) words n := by
  refine ⟨fun _ _ => lookup?_eq_some_iff, ofName?_eq, fun name family hfamily => ?_,
    fun name args n hr => ?_, fun words n => (runs_run x words m).unsupported_iff⟩
  · obtain ⟨command, hcommand⟩ := exists_command_of_lookup? hfamily
    refine ⟨command, hcommand, fun args m n h => ?_⟩
    cases handled_runPlain (x.call name args) m command _ h
  · rw [(runs_run x (name :: args) m).unsupported_iff,
      misses_of_not_handedOn (handedOn?_of_not_relay hr)]
    constructor
    · rintro ⟨hn, hhead⟩
      cases hhead
      exact ⟨rfl, hn⟩
    · rintro ⟨rfl, hn⟩
      exact ⟨hn, rfl⟩

/-- Two relays hand on a name that nothing answers to. -/
theorem run_unsupported_nested :
    (run Sample.context ["sudo", "nice", "-n", "5", "frob"] Sample.machine).answer =
      .error (.unsupported "frob") := by
  have hroot : Sample.machine.system.hasUser System.superuser = true := by decide +kernel
  have hunknown : Unknown "frob" := ⟨by decide +kernel, by decide, by decide⟩
  have hinner : innermost ["sudo", "nice", "-n", "5", "frob"] = ["frob"] := by decide +kernel
  obtain ⟨-, -, -, -, hwords⟩ := run_unsupported Sample.context Sample.machine
  exact (hwords _ _).mpr ⟨hunknown, by rw [hinner]; rfl, fun _ => hroot⟩

end PocketUnix.Command
