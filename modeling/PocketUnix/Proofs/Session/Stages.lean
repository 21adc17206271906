import PocketUnix.Proofs.Command.Effects
import PocketUnix.Proofs.Shell.Quotes
import PocketUnix.Session.Pipeline

/-!
# The stages of a line

A line is run stage by stage up to the first fault. What its stages answered, one after the other,
tells what is made of it: their effects in this order, and the answer of the last.
-/

namespace PocketUnix

namespace Evaluation

/-- What the stages answer, up to the first fault. -/
def stageAnswers (now : DateTime) (history : List String) (last : Reply) :
    List String → Machine → List (Except Fault Reply)
  | [], _ => []
  | stage :: rest, m =>
    let outcome := Command.run ⟨last.text, now, history⟩ (Shell.words stage) m
    outcome.answer ::
      match outcome.answer with
      | .error _ => []
      | .ok reply => stageAnswers now history { reply with effect := none } rest outcome.machine

/-- What the stages of a line answer. If one of several is blank, the line fails before any runs. -/
def answers (now : DateTime) (history : List String) (line : String) (m : Machine) :
    List (Except Fault Reply) :=
  let stages := Shell.parts '|' line
  if 1 < stages.length && stages.any Text.isBlank then [.error (.usage .emptyStage)]
  else stageAnswers now history .empty stages m

/-- What is asked for besides showing the answer. -/
def asked : Except Fault Reply → List Effect
  | .ok reply => reply.effect.toList
  | .error _ => []

/-- The answer without what it asks for. -/
def silenced (answer : Except Fault Reply) : Except Fault Reply :=
  answer.map fun reply => { reply with effect := none }

variable {now : DateTime} {history : List String} {last : Reply} {stages : List String}
  {line : String} {m : Machine} {fault : Fault} {reply : Reply}

/-- The effects of a line are what its stages have asked for, in their order. -/
theorem effects_runStages : (runStages now history last stages m).effects =
    (stageAnswers now history last stages m).flatMap asked := by
  induction stages generalizing last m with
  | nil => rfl
  | cons stage rest ih =>
    simp only [runStages, stageAnswers]
    cases (Command.run ⟨last.text, now, history⟩ (Shell.words stage) m).answer with
    | error fault => rfl
    | ok reply => simp only [List.flatMap_cons, ih, asked]

/-- Where no stage runs, what has been printed before stays. -/
theorem answer_runStages : (runStages now history last stages m).answer =
    ((stageAnswers now history last stages m).getLast?.map silenced).getD (.ok last) := by
  induction stages generalizing last m with
  | nil => rfl
  | cons stage rest ih =>
    simp only [runStages, stageAnswers]
    cases (Command.run ⟨last.text, now, history⟩ (Shell.words stage) m).answer with
    | error fault => rfl
    | ok reply =>
      simp only [ih, List.getLast?_cons]
      cases (stageAnswers now history { reply with effect := none } rest _).getLast? <;> rfl

/-- No stage runs behind one that fails. -/
theorem getLast?_stageAnswers (h : .error fault ∈ stageAnswers now history last stages m) :
    (stageAnswers now history last stages m).getLast? = some (.error fault) := by
  induction stages generalizing last m with
  | nil => cases h
  | cons stage rest ih =>
    simp only [stageAnswers] at h ⊢
    cases ha : (Command.run ⟨last.text, now, history⟩ (Shell.words stage) m).answer with
    | error other =>
      rw [ha] at h
      rcases List.mem_cons.mp h with h | h
      · rw [h]
        rfl
      · cases h
    | ok reply =>
      rw [ha] at h
      rcases List.mem_cons.mp h with h | h
      · cases h
      · rw [List.getLast?_cons, ih h]
        rfl

/-- No stage answers in the tone of a line that was typed or of a fault. -/
theorem isAnswer_of_mem_stageAnswers (h : .ok reply ∈ stageAnswers now history last stages m) :
    reply.tone.isAnswer = true := by
  induction stages generalizing last m with
  | nil => cases h
  | cons stage rest ih =>
    simp only [stageAnswers] at h
    cases ha : (Command.run ⟨last.text, now, history⟩ (Shell.words stage) m).answer with
    | error other =>
      rw [ha] at h
      rcases List.mem_cons.mp h with h | h <;> cases h
    | ok first =>
      rw [ha] at h
      rcases List.mem_cons.mp h with h | h
      · cases h
        exact (Command.runs_run _ _ _).isAnswer ha
      · exact ih h

/-- A line is run for what its stages answered. -/
theorem ofLine_answers (now : DateTime) (history : List String) (line : String) (m : Machine) :
    (ofLine now history line m).effects =
      (answers now history line m).flatMap asked ∧
    ∃ final, (answers now history line m).getLast? = some final ∧
      (ofLine now history line m).answer = silenced final := by
  unfold ofLine answers
  dsimp only
  split
  · exact ⟨rfl, _, rfl, rfl⟩
  · refine ⟨effects_runStages, ?_⟩
    obtain ⟨stage, rest, hparts⟩ := List.exists_cons_of_ne_nil (Shell.parts_ne_nil '|' line)
    rw [hparts, answer_runStages]
    cases hlast : (stageAnswers now history .empty (stage :: rest) m).getLast? with
    | none => simp [stageAnswers] at hlast
    | some final => exact ⟨final, rfl, rfl⟩

/-- A fault is the last answer of a line. -/
theorem getLast?_answers (h : .error fault ∈ answers now history line m) :
    (answers now history line m).getLast? = some (.error fault) := by
  unfold answers at h ⊢
  dsimp only at h ⊢
  split at h
  · next hblank =>
    rw [if_pos hblank]
    rw [List.mem_singleton.mp h]
    rfl
  · next hblank =>
    rw [if_neg hblank]
    exact getLast?_stageAnswers h

theorem isAnswer_of_mem_answers (h : .ok reply ∈ answers now history line m) :
    reply.tone.isAnswer = true := by
  unfold answers at h
  dsimp only at h
  split at h
  · cases List.mem_singleton.mp h
  · exact isAnswer_of_mem_stageAnswers h

end Evaluation

end PocketUnix
