import PocketUnix.Proofs.Command.Effects
import PocketUnix.Proofs.Session.Saving
import PocketUnix.Session.Basic

/-!
# Runs of sessions

What can happen to a session, one thing after the other, and the jobs that its lines come to on the
way. A session touches its machine by jobs and by what the editor writes, so that a property of
machines which both keep holds after every run.
-/

namespace PocketUnix

open PocketUnix.Command (job?)

namespace Evaluation

/-- The jobs that stages come to, up to the first fault. -/
def stageJobs (now : DateTime) (history : List String) (last : Reply) :
    List String → Machine → List Job
  | [], _ => []
  | stage :: rest, m =>
    let x : Context := ⟨last.text, now, history⟩
    let words := Shell.words stage
    let outcome := Command.run x words m
    (job? x words m).toList ++
      match outcome.answer with
      | .error _ => []
      | .ok reply => stageJobs now history { reply with effect := none } rest outcome.machine

/-- The jobs that a line comes to. -/
def jobs (now : DateTime) (history : List String) (line : String) (m : Machine) : List Job :=
  let stages := Shell.parts '|' line
  if 1 < stages.length && stages.any Text.isBlank then []
  else stageJobs now history .empty stages m

end Evaluation

namespace Session

/-- The jobs that a submitted line comes to. -/
def lineJobs (line : String) (s : Session) : List Job :=
  if s.isEditing then []
  else Evaluation.jobs s.clock.now s.submitted (Text.trim line) s.machine

/-- What can happen to a session. -/
inductive Event where
  | line (text : String)
  | key (key : Key)
  | editorKey (key : Key) (elapsed : Nat)
  | complete (text : String) (cursor : Nat)
  | interrupt
  | tick
  | advance (ms : Nat)

def Event.apply (event : Event) (s : Session) : Session :=
  match event with
  | .line text => s.submitLine text
  | .key k => s.handleKey k
  | .editorKey k elapsed => s.editorKeyAt k elapsed
  | .complete text cursor => (s.requestCompletion text cursor).2
  | .interrupt => s.interrupt
  | .tick => s.tick
  | .advance ms => s.advance ms

def Event.jobs (event : Event) (s : Session) : List Job :=
  match event with
  | .line text => s.lineJobs text
  | .key k => if k = .enter then s.lineJobs s.input.text else []
  | _ => []

/-- The session after some events. -/
def after (s : Session) (events : List Event) : Session :=
  events.foldl (fun s event => event.apply s) s

theorem after_nil (s : Session) : s.after [] = s := rfl

theorem after_cons (s : Session) (event : Event) (events : List Event) :
    s.after (event :: events) = (event.apply s).after events := rfl

theorem after_append (s : Session) (front back : List Event) :
    s.after (front ++ back) = (s.after front).after back := List.foldl_append

/-- The jobs that some events come to. -/
def jobs (s : Session) : List Event → List Job
  | [] => []
  | event :: rest => event.jobs s ++ jobs (event.apply s) rest

/-- Jobs with `G` and what the editor writes keep `I` of a machine, where all paths that are edited
or read from text have `T`. -/
structure Invariant (G : Job → Prop) (I : Machine → Prop) (T : Path → Prop) : Prop where
  run : ∀ x words m, I m → (∀ j, job? x words m = some j → G j) → I (Command.run x words m).machine
  edit : ∀ x words m j r request p, I m → job? x words m = some j →
    Desk.openEditor j.call j.machine = .ok r → r.effect = some (.edit request) →
    request.target = some p → T p
  read : ∀ m text, I m → T (m.resolve text)
  save : ∀ m p now text root, I m → T p → m.root.write p m.user m.group now text = .ok root →
    I { m with root }

/-- The machine has `I`, and so has the editor's target `T`. -/
structure Holds (I : Machine → Prop) (T : Path → Prop) (s : Session) : Prop where
  machine : I s.machine
  target : ∀ e, s.editor = some e → ∀ p, e.target = some p → T p

variable {G : Job → Prop} {I : Machine → Prop} {T : Path → Prop}

/-- The session has the same machine, and its editor the same target. -/
theorem Holds.congr {s s' : Session} (h : Holds I T s) (hm : s'.machine = s.machine)
    (he : ∀ e', s'.editor = some e' → ∃ e, s.editor = some e ∧ e'.target = e.target) :
    Holds I T s' where
  machine := hm ▸ h.machine
  target e' he' p hp := by
    obtain ⟨e, hs, ht⟩ := he e' he'
    exact h.target e hs p (ht ▸ hp)

theorem Holds.of_eq {s s' : Session} (h : Holds I T s) (hm : s'.machine = s.machine)
    (he : s'.editor = s.editor) : Holds I T s' :=
  h.congr hm fun e' he' => ⟨e', he ▸ he', rfl⟩

/-- An effect that opens the editor does so for a path with `T`. -/
def Aims (T : Path → Prop) (effect : Effect) : Prop :=
  ∀ request, effect = .edit request → ∀ p, request.target = some p → T p

/-- An effect leaves the machine alone, and an editor that it opens has a target with `T`. -/
theorem Holds.applyEffect {s : Session} (h : Holds I T s) {effect : Effect} (ha : Aims T effect) :
    Holds I T (s.applyEffect effect) := by
  cases effect with
  | clear => exact h.of_eq rfl rfl
  | edit request =>
    refine ⟨h.machine, fun e he p hp => ?_⟩
    cases he
    exact ha request rfl p hp

theorem Holds.applyEffects {effects : List Effect} (ha : ∀ effect ∈ effects, Aims T effect)
    {s : Session} (h : Holds I T s) : Holds I T (effects.foldl Session.applyEffect s) := by
  induction effects generalizing s with
  | nil => exact h
  | cons effect rest ih =>
    obtain ⟨hfirst, hrest⟩ := List.forall_mem_cons.mp ha
    exact ih hrest (h.applyEffect hfirst)

/-- Showing an answer touches the transcript only. -/
theorem Holds.showAnswer {s : Session} (h : Holds I T s) (answer : Except Fault Reply) :
    Holds I T (s.showAnswer answer) := by
  cases answer with
  | error fault => exact h.of_eq rfl rfl
  | ok reply =>
    unfold Session.showAnswer
    dsimp only
    split
    · exact h
    · exact h.of_eq rfl rfl

namespace Invariant

variable (inv : Invariant G I T)

include inv

theorem aims_run {x : Context} {words : List String} {m : Machine} (hm : I m) {r : Reply}
    (h : (Command.run x words m).answer = .ok r) : ∀ effect ∈ r.effect.toList, Aims T effect := by
  rintro effect he request rfl p hp
  obtain ⟨j, r', hj, hopen, hr⟩ := (Command.runs_run x words m).openEditor h (Option.mem_toList.mp he)
  exact inv.edit x words m j r' request p hm hj hopen hr hp

/-- Stage by stage the machine keeps `I`, and whatever is to be edited has `T`. -/
theorem runStages (now : DateTime) (history : List String) {stages : List String} {last : Reply}
    {m : Machine} (hm : I m) (hjobs : ∀ j ∈ Evaluation.stageJobs now history last stages m, G j) :
    let evaluation := Evaluation.runStages now history last stages m
    I evaluation.machine ∧ ∀ effect ∈ evaluation.effects, Aims T effect := by
  induction stages generalizing last m with
  | nil => exact ⟨hm, by simp [Evaluation.runStages]⟩
  | cons stage rest ih =>
    simp only [Evaluation.stageJobs, List.forall_mem_append] at hjobs
    obtain ⟨hfirst, hrest⟩ := hjobs
    have hnext : I (Command.run ⟨last.text, now, history⟩ (Shell.words stage) m).machine :=
      inv.run _ _ m hm fun j hj => hfirst j (Option.mem_toList.mpr hj)
    simp only [Evaluation.runStages]
    cases ha : (Command.run ⟨last.text, now, history⟩ (Shell.words stage) m).answer with
    | error fault => exact ⟨hnext, by simp⟩
    | ok reply =>
      simp only [ha] at hrest
      obtain ⟨hlast, heffects⟩ := ih hnext hrest
      exact ⟨hlast, List.forall_mem_append.mpr ⟨inv.aims_run hm ha, heffects⟩⟩

/-- A line is run stage by stage, or not at all. -/
theorem ofLine (now : DateTime) (history : List String) {line : String} {m : Machine} (hm : I m)
    (hjobs : ∀ j ∈ Evaluation.jobs now history line m, G j) :
    let evaluation := Evaluation.ofLine now history line m
    I evaluation.machine ∧ ∀ effect ∈ evaluation.effects, Aims T effect := by
  unfold Evaluation.jobs at hjobs
  unfold Evaluation.ofLine
  dsimp only at hjobs ⊢
  split
  · exact ⟨hm, by simp⟩
  · next hstages =>
    rw [if_neg hstages] at hjobs
    exact inv.runStages now history hm hjobs

/-- A submitted line touches the machine by its jobs only. -/
theorem submitLine {s : Session} (h : Holds I T s) {line : String}
    (hjobs : ∀ j ∈ s.lineJobs line, G j) : Holds I T (s.submitLine line) := by
  unfold Session.submitLine
  unfold lineJobs at hjobs
  dsimp only
  split
  · exact h
  · next hediting =>
    rw [if_neg hediting] at hjobs
    split
    · exact h.of_eq rfl rfl
    · have hline := inv.ofLine s.clock.now s.submitted h.machine hjobs
      generalize Evaluation.ofLine s.clock.now s.submitted (Text.trim line) s.machine = evaluation
        at hline
      refine Holds.showAnswer (Holds.applyEffects hline.2 ?_) evaluation.answer
      exact ⟨hline.1, h.target⟩

/-- A key of the editor writes to its target or to a path that it reads, if it touches the machine
at all. -/
theorem editorKeyAt {s : Session} (h : Holds I T s) (key : Key) (elapsed : Nat) :
    Holds I T (s.editorKeyAt key elapsed) := by
  cases hs : s.editor with
  | none => simpa only [Session.editorKeyAt, hs] using h
  | some e =>
    have hkey : I (e.handleKey key elapsed s.clock.now s.machine).machine ∧
        ∀ p, (e.handleKey key elapsed s.clock.now s.machine).editor.target = some p → T p := by
      have hsaves : e.Saves s.clock.now s.machine (e.handleKey key elapsed s.clock.now s.machine) :=
        Editor.saves_handleKey key elapsed
      cases hsaves with
      | not hm ht =>
        rw [hm, ht]
        exact ⟨h.machine, h.target e hs⟩
      | @written p text root hp hw hm ht =>
        have hT : T p := by
          rcases hp with hp | ⟨name, rfl⟩
          · exact h.target e hs p hp
          · exact inv.read s.machine name h.machine
        rw [hm, ht]
        refine ⟨inv.save _ p _ _ _ h.machine hT hw, fun q hq => ?_⟩
        exact Option.some.inj hq ▸ hT
    simp only [Session.editorKeyAt, hs]
    split
    · refine ⟨hkey.1, fun e' he' => ?_⟩
      cases he'
      exact hkey.2
    · exact ⟨hkey.1, nofun⟩
    · exact ⟨hkey.1, nofun⟩

end Invariant

theorem Holds.requestCompletion {s : Session} (h : Holds I T s) (text : String) (cursor : Nat) :
    Holds I T (s.requestCompletion text cursor).2 := by
  unfold Session.requestCompletion
  dsimp only
  split
  · exact h.of_eq rfl rfl
  · exact h

/-- Completion looks at the tree and changes the prompt. -/
theorem Holds.completeInput {s : Session} (h : Holds I T s) : Holds I T s.completeInput := by
  have hs := h.requestCompletion s.input.text s.input.cursor
  unfold Session.completeInput
  generalize s.requestCompletion s.input.text s.input.cursor = requested at hs
  obtain ⟨completion, s'⟩ := requested
  cases completion with
  | edited text cursor => exact hs.of_eq rfl rfl
  | unchanged => exact hs
  | listing candidates => exact hs

theorem Holds.tick {s : Session} (h : Holds I T s) : Holds I T s.tick := by
  refine h.congr rfl fun e' he' => ?_
  obtain ⟨e, he, rfl⟩ := Option.map_eq_some_iff.mp he'
  exact ⟨e, he, (Editor.sameFile_tick e _).target⟩

namespace Invariant

variable (inv : Invariant G I T)

include inv

/-- A key goes to the editor or to the prompt, where Enter submits the line. -/
theorem handleKey {s : Session} (h : Holds I T s) {key : Key}
    (hjobs : ∀ j ∈ (Event.key key).jobs s, G j) : Holds I T (s.handleKey key) := by
  unfold Session.handleKey
  split
  · exact inv.editorKeyAt h key _
  · cases key with
    | enter =>
      have hinput : Holds I T { s with input := s.input.submit } := h.of_eq rfl rfl
      exact inv.submitLine hinput hjobs
    | tab => exact h.completeInput
    | escape => exact h
    | _ => exact h.of_eq rfl rfl

/-- One step of a run, whichever event it is. -/
theorem apply {s : Session} (h : Holds I T s) (event : Event) (hjobs : ∀ j ∈ event.jobs s, G j) :
    Holds I T (event.apply s) := by
  cases event with
  | line text => exact inv.submitLine h hjobs
  | key key => exact inv.handleKey h hjobs
  | editorKey key elapsed => exact inv.editorKeyAt h key elapsed
  | complete text cursor => exact h.requestCompletion text cursor
  | interrupt => exact h.of_eq rfl rfl
  | tick => exact h.tick
  | advance ms => exact h.of_eq rfl rfl

/-- What holds at the start of a run holds at its end, if all jobs on the way have `G`. -/
theorem after {s : Session} (h : Holds I T s) {events : List Event}
    (hjobs : ∀ j ∈ s.jobs events, G j) : Holds I T (s.after events) := by
  induction events generalizing s with
  | nil => exact h
  | cons event rest ih =>
    obtain ⟨hfirst, hrest⟩ := List.forall_mem_append.mp hjobs
    exact ih (inv.apply h event hfirst) hrest

end Invariant

end Session

end PocketUnix
