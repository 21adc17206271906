import PocketUnix.Calendar.DateTime
import PocketUnix.Number.Digits
import PocketUnix.Text.Chars

/-!
# Reading moments

Reads `2024-01-05T14:03:00`, with a `T` or with blanks between date and time. Blanks may stand
before each number, a year with a sign may have any number of digits, and a second of 60 is a leap
second.
-/

namespace PocketUnix.DateTime

/-- A number of at most `most` digits, with what follows. -/
def readDigits? (most : Nat) (s : List Char) : Option (Nat × List Char) :=
  let ds := (s.take most).takeWhile Char.isDigit
  if ds.isEmpty then none else some (Number.ofDigits ds, s.drop ds.length)

/-- A year; only its sign lets it have more than four digits. -/
def readYear? (s : List Char) : Option (Int × List Char) :=
  match Chars.trimStart s with
  | '-' :: rest => (readDigits? rest.length rest).map fun (n, tail) => (-n, tail)
  | '+' :: rest => (readDigits? rest.length rest).map fun (n, tail) => (n, tail)
  | rest => (readDigits? 4 rest).map fun (n, tail) => (n, tail)

def readPair? (s : List Char) : Option (Nat × List Char) := readDigits? 2 (Chars.trimStart s)

def readMark? (mark : Char) : List Char → Option (List Char)
  | [] => none
  | c :: rest => if c = mark then some rest else none

/-- The years that moments can have. -/
def isYear (year : Int) : Bool := -262143 ≤ year && year ≤ 262142

def readDate? (s : List Char) : Option (Date × List Char) := do
  let (year, s) ← readYear? s
  let (month, s) ← readPair? (← readMark? '-' s)
  let (day, s) ← readPair? (← readMark? '-' s)
  let date : Date := ⟨year, month, day⟩
  if isYear year && date.isValid then some (date, s) else none

def readTime? (date : Date) (s : List Char) : Option DateTime := do
  let (hour, s) ← readPair? s
  let (minute, s) ← readPair? (← readMark? ':' s)
  let (second, s) ← readPair? (← readMark? ':' s)
  if 23 < hour || 59 < minute || 60 < second || !s.isEmpty then none
  else if second = 60 then
    some ⟨date, hour * 3600 + minute * 60 + 59, nanosPerSecond⟩
  else some ⟨date, hour * 3600 + minute * 60 + second, 0⟩

def read? (s : String) : Option DateTime := do
  let (date, rest) ← readDate? (Chars.trim s.toList)
  match rest with
  | 'T' :: time => readTime? date time
  | time => readTime? date (Chars.trimStart time)

end PocketUnix.DateTime
