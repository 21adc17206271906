import PocketUnix.Calendar.DateTime

/-!
# The clock

The time of day for files and the elapsed time for chords. Both move only when told to.
-/

namespace PocketUnix

structure Clock where
  now : DateTime
  /-- Milliseconds since the start. -/
  elapsed : Nat
  deriving DecidableEq, Repr

namespace Clock

def startingAt (now : DateTime) : Clock := ⟨now, 0⟩

/-- Steps longer than this leave the time of day where it is. -/
def longestStep : Nat := Nat.pow 2 63 - 1

def advance (ms : Nat) (c : Clock) : Clock :=
  ⟨if ms ≤ longestStep then c.now.addMillis ms else c.now, c.elapsed + ms⟩

end Clock

end PocketUnix
