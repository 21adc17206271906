/-!
# Dates

Dates of the proleptic Gregorian calendar, numbered by days. Day number 0 is the first of January
of the year 1, a Monday.
-/

namespace PocketUnix

structure Date where
  year : Int
  month : Nat
  day : Nat
  deriving DecidableEq, Repr

namespace Date

def isLeap (year : Int) : Bool := year % 4 == 0 && (year % 100 != 0 || year % 400 == 0)

/-- The lengths of the months in order. -/
def monthLengths (year : Int) : List Nat :=
  [31, if isLeap year then 29 else 28, 31, 30, 31, 30, 31, 31, 30, 31, 30, 31]

def daysInMonth (year : Int) (month : Nat) : Nat := (monthLengths year).getD (month - 1) 31

def isValid (d : Date) : Bool :=
  1 ≤ d.month && d.month ≤ 12 && 1 ≤ d.day && d.day ≤ daysInMonth d.year d.month

/-- The number of the day in its year, from 1. -/
def ordinal (d : Date) : Nat :=
  ((monthLengths d.year).take (d.month - 1)).foldr (· + ·) d.day

/-- The number of days from day 0 to the first of January. -/
def daysBeforeYear (year : Int) : Int :=
  let y := year - 1
  365 * y + y / 4 - y / 100 + y / 400

def dayNumber (d : Date) : Int := daysBeforeYear d.year + d.ordinal - 1

/-- The month and the day with a given number in a year whose months have these lengths. -/
def monthAndDay : List Nat → Nat → Nat × Nat
  | [], n => (1, n)
  | length :: rest, n =>
    if n ≤ length then (1, n)
    else
      let (month, day) := monthAndDay rest (n - length)
      (month + 1, day)

/-- A cycle of 400 years has 146097 days. Every fourth year of it is a day longer, but for three
of the hundredth ones, so that taking those days out leaves years of 365 days. -/
def ofDayNumber (n : Int) : Date :=
  let cycle := n / 146097
  let r := n % 146097
  let y := (r - r / 1460 + r / 36524 - r / 146096) / 365
  let year := 400 * cycle + y + 1
  let (month, day) := monthAndDay (monthLengths year) (n - daysBeforeYear year + 1).toNat
  ⟨year, month, day⟩

/-- The day of the week, from Monday. -/
def daysFromMonday (d : Date) : Nat := (d.dayNumber % 7).toNat

/-- The day of the week, from Sunday. -/
def daysFromSunday (d : Date) : Nat := ((d.dayNumber + 1) % 7).toNat

/-- The number of the week in which Thursday, the middle of the week, falls into a year, with
that year. -/
def isoWeek (d : Date) : Int × Nat :=
  let thursday := ofDayNumber (d.dayNumber - d.daysFromMonday + 3)
  (thursday.year, (thursday.ordinal - 1) / 7 + 1)

def weekdayNames : List String :=
  ["Sunday", "Monday", "Tuesday", "Wednesday", "Thursday", "Friday", "Saturday"]

def monthNames : List String :=
  ["January", "February", "March", "April", "May", "June", "July", "August", "September",
    "October", "November", "December"]

def weekdayName (d : Date) : String := weekdayNames.getD d.daysFromSunday ""

def monthName (d : Date) : String := monthNames.getD (d.month - 1) ""

end Date

end PocketUnix
