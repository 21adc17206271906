import PocketUnix.Command.Run

/-!
# Pipelines

The commands between bars, each of which reads what the one before printed. A fault ends the line.
-/

namespace PocketUnix

/-- The answer of the last command that ran, with what the commands asked for on the way. -/
structure Evaluation where
  effects : List Effect
  answer : Except Fault Reply
  machine : Machine

namespace Evaluation

def runStages (now : DateTime) (history : List String) (last : Reply) :
    List String → Machine → Evaluation
  | [], m => ⟨[], .ok last, m⟩
  | stage :: rest, m =>
    let outcome := Command.run ⟨last.text, now, history⟩ (Shell.words stage) m
    match outcome.answer with
    | .error fault => ⟨[], .error fault, outcome.machine⟩
    | .ok reply =>
      let later := runStages now history { reply with effect := none } rest outcome.machine
      { later with effects := reply.effect.toList ++ later.effects }

/-- Runs a line. Bars need a command on both sides. -/
def ofLine (now : DateTime) (history : List String) (line : String) (m : Machine) : Evaluation :=
  let stages := Shell.parts '|' line
  if 1 < stages.length && stages.any Text.isBlank then ⟨[], .error (.usage .emptyStage), m⟩
  else runStages now history .empty stages m

end Evaluation

end PocketUnix
