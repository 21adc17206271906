import Mathlib.Data.List.Flatten
import PocketUnix.Console.Basic
import PocketUnix.Proofs.Session.Transcripts

/-!
# What is printed of a transcript

A console counts the lines of the transcript that are printed, and takes a transcript that has
become shorter for one that was cleared. A line that clears leaves one line at most. So only a
transcript of one line can be cleared without becoming shorter, and then the line that took its
place is not printed.
-/

namespace PocketUnix

namespace Session

/-- The session with more lines in front of its transcript. -/
def behind (front : Transcript) (s : Session) : Session :=
  { s with transcript := front ++ s.transcript }

variable (front : Transcript) (s : Session)

@[simp] theorem machine_behind : (s.behind front).machine = s.machine := rfl
@[simp] theorem clock_behind : (s.behind front).clock = s.clock := rfl
@[simp] theorem submitted_behind : (s.behind front).submitted = s.submitted := rfl
@[simp] theorem prompt_behind : (s.behind front).prompt = s.prompt := rfl

theorem behind_empty : { s with transcript := [] }.behind s.transcript = s := by
  simp [behind]

theorem push_behind (tone : Tone) (text : String) :
    (s.behind front).push tone text = (s.push tone text).behind front := by
  simp [push, behind]

/-- An answer is shown behind whatever there is. -/
theorem showAnswer_behind (answer : Except Fault Reply) :
    (s.behind front).showAnswer answer = (s.showAnswer answer).behind front := by
  unfold showAnswer
  split
  · split
    · rfl
    · exact push_behind front s _ _
  · exact push_behind front s _ _

/-- Clearing drops the lines in front. -/
theorem foldl_applyEffect_behind (effects : List Effect) :
    effects.foldl applyEffect (s.behind front) =
      (effects.foldl applyEffect s).behind (if effects.contains .clear then [] else front) := by
  induction effects generalizing front s with
  | nil => rfl
  | cons effect rest ih =>
    cases effect with
    | clear =>
      have hdrop : (s.behind front).applyEffect .clear = (s.applyEffect .clear).behind [] := rfl
      rw [List.foldl_cons, hdrop, ih]
      simp
    | edit request =>
      have hkeep : (s.behind front).applyEffect (.edit request) =
          (s.applyEffect (.edit request)).behind front := rfl
      rw [List.foldl_cons, hkeep, ih]
      simp

/-- The answers to a line do not depend on the transcript. -/
theorem submitLine_behind (line : String) (hediting : s.isEditing = false) :
    (s.behind front).submitLine line =
      (s.submitLine line).behind (if (s.entry? line).any Entry.clears then [] else front) := by
  have hbehind : (s.behind front).isEditing = false := hediting
  by_cases hblank : Text.trim line = ""
  · rw [submitLine_of_blank hediting hblank, submitLine_of_blank hbehind hblank,
      entry?_eq_none_iff.mpr hblank]
    exact push_behind front s _ _
  · have hran : (s.behind front).ran line = (s.ran line).behind front := by
      simp only [ran, machine_behind, clock_behind, submitted_behind, prompt_behind, push_behind]
      simp only [behind]
    have hclears : (s.entry? line).any Entry.clears =
        (Evaluation.ofLine s.clock.now s.submitted (Text.trim line)
          s.machine).effects.contains .clear := by
      have hanswers := Evaluation.ofLine_answers s.clock.now s.submitted (Text.trim line) s.machine
      unfold entry?
      rw [if_neg hblank, hanswers.1, contains_clear, lineAnswers, Option.any_some]
    rw [submitLine_of_ne_blank hediting hblank, submitLine_of_ne_blank hbehind hblank, hran,
      hclears]
    simp only [machine_behind, clock_behind, submitted_behind]
    rw [foldl_applyEffect_behind, showAnswer_behind]

/-- A key of the editor adds its lines behind the old ones. -/
theorem editorKeyAt_behind (key : Key) (elapsed : Nat) :
    (s.behind front).editorKeyAt key elapsed = (s.editorKeyAt key elapsed).behind front := by
  cases heditor : s.editor with
  | none => simp only [editorKeyAt, behind, heditor]
  | some editor =>
    simp only [editorKeyAt, behind, heditor]
    split
    · rfl
    · rfl
    · simp [push]

/-- So do keys one after the other. -/
theorem foldl_editorKey_behind (keys : List Key) :
    keys.foldl (fun s key => s.editorKey key) (s.behind front) =
      (keys.foldl (fun s key => s.editorKey key) s).behind front := by
  induction keys generalizing s with
  | nil => rfl
  | cons key rest ih =>
    have hkey : (s.behind front).editorKey key = (s.editorKey key).behind front :=
      editorKeyAt_behind front s key s.clock.elapsed
    rw [List.foldl_cons, List.foldl_cons, hkey, ih]

theorem requestCompletion_behind (text : String) (cursor : Nat) :
    (s.behind front).requestCompletion text cursor =
      ((s.requestCompletion text cursor).1, (s.requestCompletion text cursor).2.behind front) := by
  unfold requestCompletion
  simp only [machine_behind, prompt_behind, push_behind]
  split <;> rfl

end Session

namespace Console

/-- A line that is submitted and has a stage that clears. -/
def clears (line : String) (s : Session) : Bool :=
  !s.isEditing && (Text.stripEnd? "\t" line).isNone && (s.entry? line).any Session.Entry.clears

/-- The lines that are added to the transcript and stay there: what stands in the transcript behind
the line if nothing stood there before. -/
def added (line : String) (s : Session) : Transcript :=
  (enter line { s with transcript := [] }).2.transcript

variable {line : String} {s : Session} {c : Console}

/-- A line drops the lines in front if it clears, and otherwise leaves them as they are; it does not
depend on them in any other way. -/
theorem enter_behind (front : Transcript) (line : String) (s : Session) :
    enter line (s.behind front) =
      ((enter line s).1, (enter line s).2.behind (if clears line s then [] else front)) := by
  have hediting : (s.behind front).isEditing = s.isEditing := rfl
  unfold enter clears
  rw [hediting]
  split
  · next hs =>
    have htick : (s.behind front).tick = s.tick.behind front := rfl
    simp [hs, htick, Session.foldl_editorKey_behind]
  · next hs =>
    cases Text.stripEnd? "\t" line with
    | none => simp [hs, Session.submitLine_behind front s line (by simpa using hs)]
    | some start =>
      simp only [Session.requestCompletion_behind]
      generalize s.requestCompletion start (Text.byteLength start) = requested
      obtain ⟨completion, s'⟩ := requested
      cases completion <;> simp

/-- A line adds its lines behind the old ones, unless it clears these. -/
theorem transcript_enter (line : String) (s : Session) : (enter line s).2.transcript =
    (if clears line s then [] else s.transcript) ++ added line s := by
  have hadded := enter_behind s.transcript line { s with transcript := [] }
  have hclears : clears line { s with transcript := [] } = clears line s := rfl
  rw [Session.behind_empty, hclears] at hadded
  rw [hadded]
  rfl

/-- Only the answer is left behind a line that clears. -/
theorem length_added_of_clears (h : clears line s = true) : (added line s).length ≤ 1 := by
  have hafter := transcript_enter line s
  rw [if_pos h, List.nil_append] at hafter
  simp only [clears, Bool.and_eq_true, Bool.not_eq_true', Option.isNone_iff_eq_none] at h
  obtain ⟨⟨hediting, htab⟩, hany⟩ := h
  have henter : (enter line s).2 = s.submitLine line := by simp [enter, hediting, htab]
  cases hentry : s.entry? line with
  | none =>
    rw [hentry] at hany
    cases hany
  | some entry =>
    rw [hentry, Option.any_some] at hany
    obtain ⟨final, shown, -, hshown, htranscript, -⟩ :=
      Session.submitLine_of_entry? hediting hentry
    rw [← hafter, henter, htranscript, if_pos hany, List.nil_append]
    cases hshown <;> simp

/-- A line with the console that it is given to. -/
structure Turn where
  line : String
  console : Console

namespace Turn

def added (t : Turn) : Transcript := Console.added t.line t.console.session

def output (t : Turn) : List String := (t.console.feed t.line).1

/-- What is printed of the transcript behind the line. -/
def transcribed (t : Turn) : List String :=
  (flush { t.console with session := (enter t.line t.console.session).2 }).1

/-- The line clears a transcript of one line and puts another in its place. -/
def Overlooks (t : Turn) : Prop :=
  clears t.line t.console.session = true ∧ t.console.session.transcript.length = 1 ∧ t.added ≠ []

/-- The transcript behind the line, and what is printed of it. -/
structure Recorded (t : Turn) : Prop where
  transcript : (t.console.feed t.line).2.session.transcript =
    (if clears t.line t.console.session then [] else t.console.session.transcript) ++ t.added
  output : t.output = (enter t.line t.console.session).1 ++ t.transcribed ++
    editorRows t.console.session.isEditing (t.console.feed t.line).2.session
  transcribed_iff : t.transcribed = t.added.map Line.text ↔ ¬t.Overlooks
  overlooked : t.Overlooks → t.transcribed = []

end Turn

/-- Nothing of the transcript is left to print, and lines that were typed are printed like others. -/
structure Settled (c : Console) : Prop where
  printed : c.printed = c.session.transcript.length
  onTerminal : c.onTerminal = false

namespace Settled

theorem opening (s : Session) : Settled (opening false s).2 := ⟨rfl, rfl⟩

theorem feed (h : Settled c) (line : String) : Settled (c.feed line).2 := ⟨rfl, h.onTerminal⟩

theorem flush_eq (h : Settled c) (s : Session) : (flush { c with session := s }).1 =
    (s.transcript.drop (if s.transcript.length < c.session.transcript.length then 0
      else c.session.transcript.length)).map Line.text := by
  simp [flush, h.onTerminal, h.printed]

variable {t : Turn} (h : Settled t.console)

include h

/-- What takes the place of a single line is not printed. -/
theorem transcribed_of_overlooks (ho : t.Overlooks) : t.transcribed = [] := by
  obtain ⟨hclears, hone, hadded⟩ := ho
  have hle : t.added.length ≤ 1 := length_added_of_clears hclears
  have hpos : 0 < t.added.length := List.length_pos_iff.mpr hadded
  have htranscript : (enter t.line t.console.session).2.transcript = t.added := by
    rw [transcript_enter, if_pos hclears, List.nil_append, Turn.added]
  rw [Turn.transcribed, h.flush_eq, htranscript, hone, if_neg (by omega),
    List.drop_of_length_le hle, List.map_nil]

/-- In all other turns the lines that are new are just those that are not counted as printed. Either
the transcript is longer than before, or nothing was printed of it, or it has become shorter and is
printed from its start. -/
theorem transcribed_of_not_overlooks (ho : ¬t.Overlooks) :
    t.transcribed = t.added.map Line.text := by
  have htranscript := transcript_enter t.line t.console.session
  rw [Turn.transcribed, h.flush_eq]
  cases hclears : clears t.line t.console.session with
  | false =>
    rw [hclears, if_neg Bool.false_ne_true] at htranscript
    rw [htranscript, if_neg (by simp), List.drop_left, Turn.added]
  | true =>
    rw [hclears, if_pos rfl, List.nil_append] at htranscript
    change _ = t.added at htranscript
    rw [htranscript]
    by_cases hadded : t.added = []
    · rw [hadded, List.drop_nil]
    · have hpos : 0 < t.added.length := List.length_pos_iff.mpr hadded
      have hone : t.console.session.transcript.length ≠ 1 := fun hone => ho ⟨hclears, hone, hadded⟩
      have hle : t.added.length ≤ 1 := length_added_of_clears hclears
      have hstart : (if t.added.length < t.console.session.transcript.length then 0
          else t.console.session.transcript.length) = 0 := by
        split <;> omega
      rw [hstart, List.drop_zero]

theorem transcribed_sublist : t.transcribed.Sublist (t.added.map Line.text) := by
  by_cases ho : t.Overlooks
  · rw [h.transcribed_of_overlooks ho]
    exact List.nil_sublist _
  · exact h.transcribed_of_not_overlooks ho ▸ List.Sublist.refl _

/-- Both cases of a turn. -/
theorem recorded : t.Recorded where
  transcript := transcript_enter t.line t.console.session
  output := rfl
  transcribed_iff := by
    refine ⟨fun heq ho => ?_, h.transcribed_of_not_overlooks⟩
    rw [h.transcribed_of_overlooks ho] at heq
    exact ho.2.2 (List.map_eq_nil_iff.mp heq.symm)
  overlooked := h.transcribed_of_overlooks

end Settled

/-- The turns of a run. -/
def turns (c : Console) : List String → List Turn
  | [] => []
  | line :: rest => ⟨line, c⟩ :: turns (c.feed line).2 rest

theorem output_feedAll (lines : List String) (c : Console) :
    (c.feedAll lines).1 = (c.turns lines).flatMap Turn.output := by
  induction lines generalizing c with
  | nil => rfl
  | cons line rest ih =>
    rw [feedAll, turns, List.flatMap_cons, ← ih]
    rfl

/-- Every turn of a run begins with nothing left to print. -/
theorem Settled.of_mem_turns (h : Settled c) {lines : List String} {t : Turn}
    (ht : t ∈ c.turns lines) : Settled t.console := by
  induction lines generalizing c with
  | nil => cases ht
  | cons line rest ih =>
    rcases List.mem_cons.mp ht with rfl | hrest
    · exact h
    · exact ih (h.feed line) hrest

/-- Where each list is a part of another, nothing is missing from all only if nothing is missing
from any. -/
theorem flatMap_eq_flatMap_iff {α β : Type} {f g : α → List β} {l : List α}
    (h : ∀ a ∈ l, (f a).Sublist (g a)) : l.flatMap f = l.flatMap g ↔ ∀ a ∈ l, f a = g a := by
  induction l with
  | nil => simp
  | cons a rest ih =>
    obtain ⟨ha, hrest⟩ := List.forall_mem_cons.mp h
    rw [List.flatMap_cons, List.flatMap_cons, List.forall_mem_cons, ← ih hrest]
    constructor
    · intro heq
      have hlengths := congrArg List.length heq
      rw [List.length_append, List.length_append] at hlengths
      have hfirst := ha.length_le
      have hlater := (List.Sublist.flatMap_right rest hrest).length_le
      have hsame : f a = g a := ha.eq_of_length (by omega)
      exact ⟨hsame, List.append_cancel_left (hsame ▸ heq)⟩
    · rintro ⟨hfirst, hlater⟩
      rw [hfirst, hlater]

/-- Away from a terminal, what a line adds to the transcript is printed in its order and once,
unless the line clears a transcript of one line and puts another in its place, of which nothing is
printed then. So a run prints all that its lines have added just if none of them does this. -/
theorem turns_recorded (s : Session) (lines : List String) :
    let start := opening false s
    let turns := start.2.turns lines
    start.1 = s.transcript.map Line.text ∧
      (start.2.feedAll lines).1 = turns.flatMap Turn.output ∧
      (∀ t ∈ turns, t.Recorded) ∧
      (turns.flatMap Turn.transcribed = (turns.flatMap Turn.added).map Line.text ↔
        ∀ t ∈ turns, ¬t.Overlooks) := by
  intro start turns
  have hsettled : ∀ t ∈ turns, Settled t.console := fun t ht => (Settled.opening s).of_mem_turns ht
  refine ⟨?_, output_feedAll lines start.2, fun t ht => (hsettled t ht).recorded, ?_⟩
  · simp [start, opening, flush]
  · have hparts : ∀ t ∈ turns, t.transcribed.Sublist (t.added.map Line.text) :=
      fun t ht => (hsettled t ht).transcribed_sublist
    rw [List.map_flatMap, flatMap_eq_flatMap_iff hparts]
    exact forall₂_congr fun t ht => (hsettled t ht).recorded.transcribed_iff

/-- The answer that is left of the second line stands where the first line stood, and is not
printed. -/
theorem turns_recorded_clear :
    let start := opening false { Sample.session with transcript := [] }
    let turns := start.2.turns ["", "clear | echo hi"]
    turns.map Turn.transcribed = [["user@terminus:~$ "], []] ∧
      turns.map (fun t => t.added.map Line.text) = [["user@terminus:~$ "], ["hi"]] ∧
      ¬∀ t ∈ turns, ¬t.Overlooks := by
  intro start turns
  have hprinted : turns.map Turn.transcribed = [["user@terminus:~$ "], []] := by decide +kernel
  have hadded : turns.map (fun t => t.added.map Line.text) = [["user@terminus:~$ "], ["hi"]] := by
    decide +kernel
  refine ⟨hprinted, hadded, fun hnone => ?_⟩
  have hall := (turns_recorded { Sample.session with transcript := [] }
    ["", "clear | echo hi"]).2.2.2.mpr hnone
  rw [List.map_flatMap] at hall
  change (turns.map Turn.transcribed).flatten =
    (turns.map fun t => t.added.map Line.text).flatten at hall
  rw [hprinted, hadded] at hall
  exact absurd hall (by decide)

end Console

end PocketUnix
