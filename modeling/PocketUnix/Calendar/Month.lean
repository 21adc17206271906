import PocketUnix.Calendar.Format

/-!
# Month calendars

The days of a month in rows of weeks that start on Sunday, each day in three columns.
-/

namespace PocketUnix.Date

/-- The fields of a month's grid: blank ones before the first day, then the days. -/
def monthFields (lead days : Nat) : List (Option Nat) :=
  List.replicate lead none ++ (List.range days).map fun n => some (n + 1)

/-- Rows of seven fields; the last one may be shorter. -/
def weeks {α : Type} (fields : List α) : List (List α) :=
  match fields with
  | [] => []
  | f :: rest => (f :: rest.take 6) :: weeks (rest.drop 6)
termination_by fields.length
decreasing_by simp only [List.length_drop, List.length_cons]; omega

def fieldText : Option Nat → String
  | none => "   "
  | some day => Text.padLeft 2 (.ofList (Number.digits day)) ++ " "

def weekText (week : List (Option Nat)) : String :=
  Text.trimEnd (String.join (week.map fieldText))

def monthTitle (d : Date) : String :=
  d.monthName ++ " " ++ .ofList (DateTime.yearPlaces .zero d.year)

/-- The calendar of the month in which a date lies. -/
def monthCalendar (d : Date) : String :=
  let first : Date := { d with day := 1 }
  let fields := monthFields first.daysFromSunday (daysInMonth d.year d.month)
  Text.joinLines (Text.trimEnd (Text.center 20 d.monthTitle) :: "Su Mo Tu We Th Fr Sa" ::
    (weeks fields).map weekText)

end PocketUnix.Date
