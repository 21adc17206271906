import PocketUnix.Proofs.PromptLine.Sides
import PocketUnix.Proofs.Session.Transcripts

/-!
# Lines that are typed

A line is typed at the prompt letter by letter and ended with Enter, or submitted as a whole. Typing
works on the prompt line alone, and submitting never looks at it, so that both lead to the same.
-/

namespace PocketUnix

namespace PromptLine

variable {c : Char} {letters : List Char}

/-- The line with some more letters, one after the other. -/
def typed (letters : List Char) (p : PromptLine) : PromptLine :=
  letters.foldl (fun p c => p.insertChar c) p

theorem typed_cons (c : Char) (rest : List Char) (p : PromptLine) :
    p.typed (c :: rest) = (p.insertChar c).typed rest := rfl

theorem sides_insertChar (h : Chars.isControl c = false) (p : PromptLine) :
    (p.insertChar c).sides = (p.sides.1 ++ [c], p.sides.2) := by
  have hsplits := splits_withSides (p.sides.1 ++ [c]) p.sides.2 p
  rw [insertChar, h]
  exact hsplits.sides_eq

/-- Letters are typed behind those that stand before the cursor. -/
theorem text_typed (h : ∀ c ∈ letters, Chars.isControl c = false) (p : PromptLine) :
    (p.typed letters).text = .ofList (p.sides.1 ++ letters ++ p.sides.2) := by
  induction letters generalizing p with
  | nil =>
    have happend : p.sides.1 ++ p.sides.2 = p.text.toList := Chars.cut_append p.cursor p.text.toList
    rw [List.append_nil, happend, String.ofList_toList]
    rfl
  | cons c rest ih =>
    obtain ⟨hfirst, hrest⟩ := List.forall_mem_cons.mp h
    rw [typed_cons, ih hrest, sides_insertChar hfirst]
    simp

/-- Where nothing stood, a text is typed as it is. -/
theorem text_typed_of_empty {p : PromptLine} (hempty : p.text = "") {text : String}
    (h : ∀ c ∈ text.toList, Chars.isControl c = false) :
    (p.typed text.toList).text = text := by
  have hsides : p.sides = ([], []) := by rw [sides, hempty]; rfl
  rw [text_typed h, hsides, List.nil_append, List.append_nil, String.ofList_toList]

/-- A line that is submitted leaves the prompt empty. -/
theorem submit_empty (p : PromptLine) :
    p.submit.text = "" ∧ p.submit.cursor = 0 ∧ p.submit.recalled = none := by
  unfold submit
  dsimp only
  split <;> exact ⟨rfl, rfl, rfl⟩

end PromptLine

namespace Session

/-- The session with another line at the prompt. -/
def withInput (input : PromptLine) (s : Session) : Session := { s with input }

variable {s : Session} (input : PromptLine)

@[simp] theorem machine_withInput (s : Session) : (s.withInput input).machine = s.machine := rfl
@[simp] theorem clock_withInput (s : Session) : (s.withInput input).clock = s.clock := rfl
@[simp] theorem submitted_withInput (s : Session) :
    (s.withInput input).submitted = s.submitted := rfl
@[simp] theorem prompt_withInput (s : Session) : (s.withInput input).prompt = s.prompt := rfl
@[simp] theorem input_withInput (s : Session) : (s.withInput input).input = input := rfl

theorem push_withInput (tone : Tone) (text : String) (s : Session) :
    (s.withInput input).push tone text = (s.push tone text).withInput input := rfl

/-- No effect of a line looks at the prompt. -/
theorem foldl_applyEffect_withInput (effects : List Effect) (s : Session) :
    effects.foldl applyEffect (s.withInput input) =
      (effects.foldl applyEffect s).withInput input := by
  induction effects generalizing s with
  | nil => rfl
  | cons effect rest ih =>
    have heffect : (s.withInput input).applyEffect effect =
        (s.applyEffect effect).withInput input := by
      cases effect <;> rfl
    rw [List.foldl_cons, heffect, ih, List.foldl_cons]

theorem showAnswer_withInput (answer : Except Fault Reply) (s : Session) :
    (s.withInput input).showAnswer answer = (s.showAnswer answer).withInput input := by
  unfold showAnswer
  split
  · split <;> rfl
  · rfl

/-- To submit a line takes no look at the prompt. -/
theorem submitLine_withInput (line : String) (s : Session) :
    (s.withInput input).submitLine line = (s.submitLine line).withInput input := by
  have hinput : (s.withInput input).isEditing = s.isEditing := rfl
  cases hediting : s.isEditing with
  | true =>
    rw [hediting] at hinput
    rw [submitLine_of_isEditing hediting, submitLine_of_isEditing hinput]
  | false =>
    rw [hediting] at hinput
    by_cases hblank : Text.trim line = ""
    · rw [submitLine_of_blank hediting hblank, submitLine_of_blank hinput hblank]
      exact push_withInput input .input s.prompt s
    · have hran : (s.withInput input).ran line = (s.ran line).withInput input := by
        simp only [ran, machine_withInput, clock_withInput, submitted_withInput,
          prompt_withInput, push_withInput]
        simp only [withInput]
      rw [submitLine_of_ne_blank hediting hblank, submitLine_of_ne_blank hinput hblank, hran]
      simp only [machine_withInput, clock_withInput, submitted_withInput]
      rw [foldl_applyEffect_withInput, showAnswer_withInput]

/-- A line is typed letter by letter. -/
def typing (line : String) : List Event := line.toList.map fun c => .key (.char c)

/-- While no editor is open, letters go to the prompt. -/
theorem after_typing (hclosed : s.isEditing = false) (line : String) :
    s.after (typing line) = s.withInput (s.input.typed line.toList) := by
  unfold typing
  generalize line.toList = letters
  induction letters generalizing s with
  | nil => rfl
  | cons c rest ih =>
    have hkey : (Event.key (.char c)).apply s = s.withInput (s.input.insertChar c) := by
      rw [Event.apply, handleKey, if_neg (by simp [hclosed])]
      rfl
    rw [List.map_cons, after_cons, hkey]
    exact ih hclosed

/-- Enter submits the line at the prompt. -/
theorem handleKey_enter (hclosed : s.isEditing = false) :
    s.handleKey .enter = (s.submitLine s.input.text).withInput s.input.submit := by
  rw [handleKey, if_neg (by simp [hclosed]), ← submitLine_withInput]
  rfl

/-- A line that is typed at an empty prompt and ended with Enter is submitted, and only the history
of the prompt tells it from one that has been submitted as a whole. -/
theorem after_typing_enter (hclosed : s.isEditing = false) (hempty : s.input.text = "")
    {line : String} (hletters : ∀ c ∈ line.toList, Chars.isControl c = false) :
    s.after (typing line ++ [.key .enter]) =
      (s.submitLine line).withInput (s.input.typed line.toList).submit := by
  have htext := PromptLine.text_typed_of_empty hempty hletters
  have hsplit : s.after (typing line ++ [.key .enter]) =
      (s.after (typing line)).handleKey .enter := after_append _ _ _
  rw [hsplit, after_typing hclosed]
  generalize s.input.typed line.toList = typed at htext ⊢
  rw [handleKey_enter (s := s.withInput typed) hclosed, input_withInput, htext,
    submitLine_withInput]
  rfl

/-- Typing a line and ending it with Enter leads to the same as submitting it, and the prompt is
empty again. -/
theorem typed_line (hclosed : s.isEditing = false) (hempty : s.input.text = "") {line : String}
    (hletters : ∀ c ∈ line.toList, Chars.isControl c = false) :
    let typed := s.after (typing line ++ [.key .enter])
    let submitted := s.submitLine line
    (typed.machine = submitted.machine ∧ typed.transcript = submitted.transcript ∧
        typed.submitted = submitted.submitted ∧ typed.editor = submitted.editor ∧
        typed.clock = submitted.clock ∧ typed.config = submitted.config) ∧
      typed.input.text = "" ∧ typed.input.cursor = 0 ∧ typed.input.recalled = none := by
  intro typed submitted
  have htyped : typed = submitted.withInput (s.input.typed line.toList).submit :=
    after_typing_enter hclosed hempty hletters
  have hsubmit := PromptLine.submit_empty (s.input.typed line.toList)
  generalize (s.input.typed line.toList).submit = input at htyped hsubmit
  rw [htyped]
  exact ⟨⟨rfl, rfl, rfl, rfl, rfl, rfl⟩, hsubmit⟩

/-- A line with letters of several bytes, which opens the editor. -/
theorem typed_line_vim :
    (Sample.session.after (typing "vim é→𝄞" ++ [.key .enter])).editor =
        (Sample.session.submitLine "vim é→𝄞").editor ∧
      (Sample.session.after (typing "vim é→𝄞" ++ [.key .enter])).input.text = "" := by
  have hletters : ∀ c ∈ "vim é→𝄞".toList, Chars.isControl c = false := by
    simp [Chars.isControl]
  obtain ⟨⟨-, -, -, heditor, -, -⟩, htext, -, -⟩ :=
    typed_line (s := Sample.session) rfl rfl hletters
  exact ⟨heditor, htext⟩

end Session

end PocketUnix
