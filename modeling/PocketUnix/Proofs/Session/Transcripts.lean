import PocketUnix.Proofs.Sample
import PocketUnix.Proofs.Session.Runs
import PocketUnix.Proofs.Session.Stages

/-!
# Transcripts

The transcript of a session only grows, until a line clears it. The list of submitted lines is that
of all lines that have been run since. Both are told by the lines that a run submits and by what
their stages answer.
-/

namespace PocketUnix.Session

open PocketUnix.Evaluation (answers asked)

/-- A line as it is kept, and whether it clears what has been kept before. -/
structure Entry where
  command : String
  clears : Bool
  deriving DecidableEq

/-- The answers to a line that is run in a session. -/
def lineAnswers (line : String) (s : Session) : List (Except Fault Reply) :=
  answers s.clock.now s.submitted (Text.trim line) s.machine

/-- The entry of a line in a session without an editor, unless the line is blank: it clears if one
of its stages asks for it. -/
def entry? (line : String) (s : Session) : Option Entry :=
  if Text.trim line = "" then none
  else some ⟨Text.trim line, (s.lineAnswers line).any fun a => (asked a).contains .clear⟩

/-- The line that an event submits, if the editor is not open. -/
def Event.line? (event : Event) (s : Session) : Option String :=
  if s.isEditing then none
  else
    match event with
    | .line text => some text
    | .key .enter => some s.input.text
    | _ => none

def Event.entry? (event : Event) (s : Session) : Option Entry :=
  (event.line? s).bind (s.entry? ·)

/-- The entries of a run. -/
def entries (s : Session) : List Event → List Entry
  | [] => []
  | event :: rest => (event.entry? s).toList ++ entries (event.apply s) rest

/-- What is shown for an answer: a fault, a text or nothing. -/
inductive Shown : Except Fault Reply → List Line → Prop
  | fault (fault : Fault) : Shown (.error fault) [⟨.error, fault.message⟩]
  | nothing {reply : Reply} (h : reply.text = "") : Shown (.ok reply) []
  | text {reply : Reply} (h : reply.text ≠ "") (ht : reply.tone = .output ∨ reply.tone = .info) :
    Shown (.ok reply) [⟨reply.tone, reply.text⟩]

variable {s s' : Session} {line : String} {event : Event} {entry : Entry}

/-- Of the effects of a line only one touches what has been kept, and that clears it. -/
theorem foldl_applyEffect (effects : List Effect) (s : Session) :
    (effects.foldl applyEffect s).transcript =
        (if effects.contains .clear then [] else s.transcript) ∧
      (effects.foldl applyEffect s).submitted =
        (if effects.contains .clear then [] else s.submitted) := by
  induction effects generalizing s with
  | nil => simp
  | cons effect rest ih =>
    obtain ⟨htranscript, hsubmitted⟩ := ih (s.applyEffect effect)
    rw [List.foldl_cons, htranscript, hsubmitted]
    cases effect with
    | clear => simp [applyEffect]
    | edit request => simp [applyEffect]

/-- A final answer adds what it shows, and no line. -/
theorem showAnswer_eq {final : Except Fault Reply}
    (h : ∀ reply, final = .ok reply → reply.tone.isAnswer = true) (s : Session) :
    ∃ shown, Shown final shown ∧
      (s.showAnswer (Evaluation.silenced final)).transcript = s.transcript ++ shown ∧
      (s.showAnswer (Evaluation.silenced final)).submitted = s.submitted := by
  cases final with
  | error fault => exact ⟨_, .fault fault, rfl, rfl⟩
  | ok reply =>
    by_cases htext : reply.text = ""
    · refine ⟨[], .nothing htext, ?_⟩
      simp [Evaluation.silenced, Except.map, showAnswer, htext]
    · refine ⟨_, .text htext (Tone.isAnswer_iff.mp (h reply rfl)), ?_⟩
      simp [Evaluation.silenced, Except.map, showAnswer, htext, push]

/-- The session once a line has been shown, run and kept. -/
def ran (line : String) (s : Session) : Session :=
  { s.push .input (s.prompt ++ line) with
    machine := (Evaluation.ofLine s.clock.now s.submitted (Text.trim line) s.machine).machine
    submitted := s.submitted ++ [Text.trim line] }

theorem submitLine_of_ne_blank (hediting : s.isEditing = false) (hblank : Text.trim line ≠ "") :
    s.submitLine line =
      let evaluation := Evaluation.ofLine s.clock.now s.submitted (Text.trim line) s.machine
      (evaluation.effects.foldl applyEffect (s.ran line)).showAnswer evaluation.answer := by
  rw [submitLine, if_neg (by simp [hediting])]
  exact if_neg hblank

theorem contains_clear (answers : List (Except Fault Reply)) :
    (answers.flatMap asked).contains .clear =
      answers.any fun a => (asked a).contains .clear := by
  simp only [List.contains_eq_any_beq, List.any_flatMap]

/-- What is made of a line once it has been shown and kept. -/
theorem submitLine_eq (hediting : s.isEditing = false) (hblank : Text.trim line ≠ "") :
    ∃ ran final, ran.transcript = s.transcript ++ [⟨.input, s.prompt ++ line⟩] ∧
      ran.submitted = s.submitted ++ [Text.trim line] ∧
      (s.lineAnswers line).getLast? = some final ∧
      s.submitLine line = (((s.lineAnswers line).flatMap asked).foldl applyEffect ran).showAnswer
        (Evaluation.silenced final) := by
  let evaluation := Evaluation.ofLine s.clock.now s.submitted (Text.trim line) s.machine
  have hanswers : evaluation.effects = (s.lineAnswers line).flatMap asked ∧
      ∃ final, (s.lineAnswers line).getLast? = some final ∧
        evaluation.answer = Evaluation.silenced final :=
    Evaluation.ofLine_answers s.clock.now s.submitted (Text.trim line) s.machine
  obtain ⟨heffects, final, hfinal, hanswer⟩ := hanswers
  refine ⟨s.ran line, final, rfl, rfl, hfinal, ?_⟩
  rw [← heffects, ← hanswer]
  exact submitLine_of_ne_blank hediting hblank

/-- A line is shown behind the prompt, and what comes of it behind the line. -/
theorem submitLine_of_entry? (hediting : s.isEditing = false)
    (hentry : s.entry? line = some entry) :
    ∃ final shown, (s.lineAnswers line).getLast? = some final ∧ Shown final shown ∧
      (s.submitLine line).transcript = (if entry.clears then []
        else s.transcript ++ [⟨.input, s.prompt ++ line⟩]) ++ shown ∧
      (s.submitLine line).submitted =
        if entry.clears then [] else s.submitted ++ [entry.command] := by
  unfold entry? at hentry
  split at hentry
  · cases hentry
  · next hblank =>
    cases hentry
    obtain ⟨ran, final, htranscript, hsubmitted, hfinal, hsubmit⟩ := submitLine_eq hediting hblank
    have htone : ∀ reply, final = .ok reply → reply.tone.isAnswer = true := by
      rintro reply rfl
      exact Evaluation.isAnswer_of_mem_answers (List.mem_of_getLast? hfinal)
    obtain ⟨shown, hshown, htranscript', hsubmitted'⟩ :=
      showAnswer_eq htone (((s.lineAnswers line).flatMap asked).foldl applyEffect ran)
    refine ⟨final, shown, hfinal, hshown, ?_, ?_⟩
    · rw [hsubmit, htranscript', (foldl_applyEffect _ ran).1, contains_clear, htranscript]
    · rw [hsubmit, hsubmitted', (foldl_applyEffect _ ran).2, contains_clear, hsubmitted]

/-- A blank line shows the prompt and does nothing else. -/
theorem submitLine_of_blank (hediting : s.isEditing = false) (hblank : Text.trim line = "") :
    s.submitLine line = s.push .input s.prompt := by
  simp [submitLine, hediting, hblank]

theorem submitLine_of_isEditing (hediting : s.isEditing = true) (line : String) :
    s.submitLine line = s := by
  simp [submitLine, hediting]

/-- The transcript has grown, and no line has been submitted. -/
structure Grows (s s' : Session) : Prop where
  transcript : s.transcript <+: s'.transcript
  submitted : s'.submitted = s.submitted

namespace Grows

theorem of_eq (ht : s'.transcript = s.transcript) (hs : s'.submitted = s.submitted) : Grows s s' :=
  ⟨ht ▸ List.prefix_rfl, hs⟩

theorem push (tone : Tone) (text : String) (s : Session) : Grows s (s.push tone text) :=
  ⟨List.prefix_append _ _, rfl⟩

theorem trans {t : Session} (h : Grows s s') (h' : Grows s' t) : Grows s t :=
  ⟨h.transcript.trans h'.transcript, h'.submitted.trans h.submitted⟩

/-- A key of the editor shows a notice at most. -/
theorem editorKeyAt (key : Key) (elapsed : Nat) (s : Session) :
    Grows s (s.editorKeyAt key elapsed) := by
  unfold Session.editorKeyAt
  split
  · exact .of_eq rfl rfl
  · dsimp only
    split
    · exact .of_eq rfl rfl
    · exact .of_eq rfl rfl
    · exact ⟨List.prefix_append _ _, rfl⟩

theorem requestCompletion (text : String) (cursor : Nat) (s : Session) :
    Grows s (s.requestCompletion text cursor).2 := by
  unfold Session.requestCompletion
  dsimp only
  split
  · exact (push _ _ s).trans (push _ _ _)
  · exact .of_eq rfl rfl

/-- Completion shows the choices at most. -/
theorem completeInput (s : Session) : Grows s s.completeInput := by
  have hs := requestCompletion s.input.text s.input.cursor s
  unfold Session.completeInput
  generalize s.requestCompletion s.input.text s.input.cursor = requested at hs
  obtain ⟨completion, s'⟩ := requested
  cases completion with
  | edited text cursor => exact hs.trans (.of_eq rfl rfl)
  | unchanged => exact hs
  | listing candidates => exact hs

theorem promptKey {key : Key} (hkey : key ≠ .enter) (s : Session) : Grows s (s.promptKey key) := by
  cases key with
  | enter => exact absurd rfl hkey
  | tab => exact completeInput s
  | interrupt => exact ⟨List.prefix_append _ _, rfl⟩
  | _ => exact .of_eq rfl rfl

/-- Events that submit no line add to the transcript at most. -/
theorem apply (h : event.line? s = none) : Grows s (event.apply s) := by
  unfold Event.line? at h
  cases event with
  | line text =>
    split at h
    · next hediting =>
      rw [Event.apply, submitLine_of_isEditing hediting]
      exact .of_eq rfl rfl
    · cases h
  | key key =>
    split at h
    · next hediting =>
      rw [Event.apply, handleKey, if_pos hediting]
      exact editorKeyAt key _ s
    · next hediting =>
      rw [Event.apply, handleKey, if_neg hediting]
      refine promptKey ?_ s
      rintro rfl
      cases h
  | editorKey key elapsed => exact editorKeyAt key elapsed s
  | complete text cursor => exact requestCompletion text cursor s
  | interrupt => exact ⟨List.prefix_append _ _, rfl⟩
  | tick => exact .of_eq rfl rfl
  | advance ms => exact .of_eq rfl rfl

end Grows

/-- A line is submitted as it stands, if need be out of the prompt line. -/
theorem Event.apply_of_line? (h : event.line? s = some line) :
    s.isEditing = false ∧ ∃ input, event.apply s = submitLine line { s with input } := by
  unfold Event.line? at h
  split at h
  · cases h
  · next hediting =>
    refine ⟨by simpa using hediting, ?_⟩
    split at h
    · cases h
      exact ⟨s.input, rfl⟩
    · cases h
      refine ⟨s.input.submit, ?_⟩
      rw [Event.apply, handleKey, if_neg hediting]
      rfl
    · cases h

/-- The transcript and the machine behind an event. -/
structure Event.Recorded (event : Event) (s : Session) : Prop where
  /-- Nothing is taken from the transcript, unless a line clears it. -/
  keeps : (∀ entry, event.entry? s = some entry → entry.clears = false) →
    s.transcript <+: (event.apply s).transcript
  /-- A line is shown behind the prompt, with what is shown for the answer of its last stage: a
  fault, if there is one. Where the line clears, this alone is left. -/
  command : ∀ line entry, event.line? s = some line → s.entry? line = some entry →
    ∃ final shown, (s.lineAnswers line).getLast? = some final ∧
      (∀ fault, .error fault ∈ s.lineAnswers line → final = .error fault) ∧ Shown final shown ∧
      (event.apply s).transcript = (if entry.clears then []
        else s.transcript ++ [⟨.input, s.prompt ++ line⟩]) ++ shown
  /-- A blank line shows the prompt, and changes the prompt line at most. -/
  blank : ∀ line, event.line? s = some line → Text.trim line = "" →
    ∃ input, event.apply s = push .input s.prompt { s with input }
  editing : s.isEditing = true → ∀ line, s.submitLine line = s

/-- The transcript and the submitted lines behind a run. -/
structure Kept (s : Session) (events : List Event) : Prop where
  transcript : (∀ entry ∈ s.entries events, entry.clears = false) →
    s.transcript <+: (s.after events).transcript
  all : (∀ entry ∈ s.entries events, entry.clears = false) →
    (s.after events).submitted = s.submitted ++ (s.entries events).map Entry.command
  since : ∀ front entry back, s.entries events = front ++ entry :: back → entry.clears = true →
    (∀ entry ∈ back, entry.clears = false) →
    (s.after events).submitted = back.map Entry.command

theorem entry?_eq_none_iff : s.entry? line = none ↔ Text.trim line = "" := by
  unfold entry?
  split
  · next hblank => simp [hblank]
  · next hblank => simp [hblank]

theorem Event.entry?_of_line? (h : event.line? s = some line) : event.entry? s = s.entry? line := by
  rw [Event.entry?, h]
  rfl

/-- One event: it submits a line, and then what is kept is told by the answers to that line, or it
adds to the transcript at most. -/
theorem Event.recorded (event : Event) (s : Session) : event.Recorded s where
  keeps hkeeps := by
    cases hline : event.line? s with
    | none => exact (Grows.apply hline).transcript
    | some line =>
      obtain ⟨hediting, input, happly⟩ := Event.apply_of_line? hline
      rw [happly]
      cases hentry : s.entry? line with
      | none =>
        rw [submitLine_of_blank (s := { s with input }) hediting (entry?_eq_none_iff.mp hentry)]
        exact List.prefix_append _ _
      | some entry =>
        have hclears := hkeeps entry ((Event.entry?_of_line? hline).trans hentry)
        obtain ⟨final, shown, -, -, htranscript, -⟩ :=
          submitLine_of_entry? (s := { s with input }) hediting hentry
        rw [htranscript, hclears, if_neg Bool.false_ne_true, List.append_assoc]
        exact List.prefix_append _ _
  command line entry hline hentry := by
    obtain ⟨hediting, input, happly⟩ := Event.apply_of_line? hline
    obtain ⟨final, shown, hfinal, hshown, htranscript, -⟩ :=
      submitLine_of_entry? (s := { s with input }) hediting hentry
    refine ⟨final, shown, hfinal, fun fault hfault => ?_, hshown, happly ▸ htranscript⟩
    exact Option.some.inj (hfinal.symm.trans (Evaluation.getLast?_answers hfault))
  blank line hline hblank := by
    obtain ⟨hediting, input, happly⟩ := Event.apply_of_line? hline
    exact ⟨input, happly.trans (submitLine_of_blank hediting hblank)⟩
  editing := submitLine_of_isEditing

/-- One more entry of the lines since the last that cleared. -/
def keep (lines : List String) (entry : Entry) : List String :=
  if entry.clears then [] else lines ++ [entry.command]

/-- An event keeps the lines as its entry does, if it has one. -/
theorem submitted_apply (event : Event) (s : Session) :
    (event.apply s).submitted = (event.entry? s).toList.foldl keep s.submitted := by
  cases hline : event.line? s with
  | none =>
    rw [(Grows.apply hline).submitted, Event.entry?, hline]
    rfl
  | some line =>
    obtain ⟨hediting, input, happly⟩ := Event.apply_of_line? hline
    rw [happly, Event.entry?_of_line? hline]
    cases hentry : s.entry? line with
    | none =>
      rw [submitLine_of_blank (s := { s with input }) hediting (entry?_eq_none_iff.mp hentry)]
      rfl
    | some entry =>
      obtain ⟨final, shown, -, -, -, hsubmitted⟩ :=
        submitLine_of_entry? (s := { s with input }) hediting hentry
      exact hsubmitted

theorem submitted_after (s : Session) (events : List Event) :
    (s.after events).submitted = (s.entries events).foldl keep s.submitted := by
  induction events generalizing s with
  | nil => rfl
  | cons event rest ih =>
    rw [entries, List.foldl_append, ← submitted_apply]
    exact ih (event.apply s)

/-- Entries that clear nothing are kept one behind the other. -/
theorem foldl_keep {entries : List Entry} (h : ∀ entry ∈ entries, entry.clears = false)
    (lines : List String) : entries.foldl keep lines = lines ++ entries.map Entry.command := by
  induction entries generalizing lines with
  | nil => simp
  | cons entry rest ih =>
    obtain ⟨hfirst, hrest⟩ := List.forall_mem_cons.mp h
    have hkeep : keep lines entry = lines ++ [entry.command] := by simp [keep, hfirst]
    rw [List.foldl_cons, ih hrest, hkeep, List.map_cons, List.append_assoc]
    rfl

/-- Along a run, the transcript and the lines are those since the last entry that clears. -/
theorem kept (s : Session) (events : List Event) : s.Kept events where
  transcript h := by
    induction events generalizing s with
    | nil => exact List.prefix_rfl
    | cons event rest ih =>
      obtain ⟨hfirst, hrest⟩ := List.forall_mem_append.mp h
      refine List.IsPrefix.trans ((event.recorded s).keeps fun entry he => ?_) (ih _ hrest)
      exact hfirst entry (Option.mem_toList.mpr he)
  all h := by rw [submitted_after, foldl_keep h]
  since front entry back hentries hclears hback := by
    have hkeep : ∀ lines, keep lines entry = [] := fun lines => by simp [keep, hclears]
    rw [submitted_after, hentries, List.foldl_append, List.foldl_cons, hkeep, foldl_keep hback,
      List.nil_append]

/-- In every session the transcript only grows but for lines that clear it, a line adds itself and
its answer, and behind every run the submitted lines are those run since the last that cleared. -/
theorem recorded_kept (s : Session) (event : Event) (events : List Event) :
    event.Recorded s ∧ s.Kept events :=
  ⟨event.recorded s, s.kept events⟩

/-- A stage clears the transcript in front of another that fails. -/
theorem recorded_kept_cleared :
    let events : List Event := [.line "pwd", .line "clear | cat nosuch", .line " whoami "]
    Sample.session.entries events =
        [⟨"pwd", false⟩, ⟨"clear | cat nosuch", true⟩, ⟨"whoami", false⟩] ∧
      (Sample.session.after events).submitted = ["whoami"] := by
  intro events
  have hentries : Sample.session.entries events =
      [⟨"pwd", false⟩, ⟨"clear | cat nosuch", true⟩, ⟨"whoami", false⟩] := by decide +kernel
  refine ⟨hentries, ?_⟩
  exact (recorded_kept Sample.session .tick events).2.since [⟨"pwd", false⟩]
    ⟨"clear | cat nosuch", true⟩ [⟨"whoami", false⟩] hentries rfl (by decide)

end PocketUnix.Session
