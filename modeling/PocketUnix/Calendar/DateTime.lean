import PocketUnix.Calendar.Date

/-!
# Moments

A date with the second of the day and the nanosecond. A leap second is the last second of its
minute with a thousand million nanoseconds or more.
-/

namespace PocketUnix

structure DateTime where
  date : Date
  second : Nat
  nano : Nat
  deriving DecidableEq, Repr

namespace DateTime

def nanosPerSecond : Nat := 1000000000

def secondsPerDay : Nat := 86400

def hour (t : DateTime) : Nat := t.second / 3600

def minute (t : DateTime) : Nat := t.second / 60 % 60

/-- The second of the minute, 60 in a leap second. -/
def secondOfMinute (t : DateTime) : Nat := t.second % 60 + t.nano / nanosPerSecond

/-- The hour on a dial of twelve. -/
def hour12 (t : DateTime) : Nat := if t.hour % 12 = 0 then 12 else t.hour % 12

def isAfternoon (t : DateTime) : Bool := 12 ≤ t.hour

/-- The seconds since the start of 1970, which is day number 719162. -/
def unixSeconds (t : DateTime) : Int :=
  (t.date.dayNumber - 719162) * secondsPerDay + t.second

/-- Adds to a moment outside leap seconds. -/
def addNanos (t : DateTime) (nanos : Nat) : DateTime :=
  let total := t.nano + nanos
  let seconds := t.second + total / nanosPerSecond
  ⟨.ofDayNumber (t.date.dayNumber + (seconds / secondsPerDay : Nat)), seconds % secondsPerDay,
    total % nanosPerSecond⟩

/-- A time short enough stays within a leap second; a longer one counts from the second that the
leap second prolongs. -/
def addMillis (t : DateTime) (ms : Nat) : DateTime :=
  let nanos := ms * 1000000
  if t.nano < nanosPerSecond then t.addNanos nanos
  else if ms < 1000 && t.nano + nanos < 2 * nanosPerSecond then
    { t with nano := t.nano + nanos }
  else addNanos { t with nano := t.nano - nanosPerSecond } nanos

end DateTime

end PocketUnix
