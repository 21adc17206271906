import PocketUnix.Shell.Fault

/-!
# Actions

A command that changes a state works on it step by step. A fault ends the work where it stands, so
that the state at the end is there in either case and what was changed before a fault stays.
-/

namespace PocketUnix

abbrev Action (σ : Type) := EStateM Fault σ

namespace Action

variable {σ α : Type}

def fail (fault : Fault) : Action σ α := fun s => .error fault s

/-- Takes an answer that was found without touching the state. -/
def ofExcept : Except Fault α → Action σ α
  | .ok a => pure a
  | .error fault => fail fault

def change (f : σ → σ) : Action σ Unit := fun s => .ok () (f s)

/-- Puts a new state in place, unless there is none. -/
def update (f : σ → Except Fault (α × σ)) : Action σ α := fun s =>
  match f s with
  | .ok (a, s) => .ok a s
  | .error fault => .error fault s

end Action

end PocketUnix
