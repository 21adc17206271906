import Mathlib.Data.List.Forall2
import PocketUnix.Proofs.Command.Job
import PocketUnix.Proofs.Numbers
import PocketUnix.Proofs.Sample
import PocketUnix.Proofs.Text.Ends
import PocketUnix.Proofs.Text.Pieces

/-!
# The calendar of a month

The days of a month stand in the rows of its calendar one after the other, each in the column of its
weekday. A row goes on with blanks behind its end, so that each column of it has three letters.
-/

namespace PocketUnix.Date

variable {α : Type} {d : Date} {week : List (Option Nat)}

/-- The first day of the month that follows the month of a date. -/
def nextMonth (d : Date) : Date :=
  if d.month = 12 then ⟨d.year + 1, 1, 1⟩ else ⟨d.year, d.month + 1, 1⟩

/-- The days of a month follow each other in the year. -/
theorem ordinal_day (d : Date) (n : Nat) :
    ordinal { d with day := n + 1 } = ordinal { d with day := 1 } + n := by
  have hsum : ∀ lengths : List Nat,
      lengths.foldr (· + ·) (n + 1) = lengths.foldr (· + ·) 1 + n := by
    intro lengths
    induction lengths with
    | nil => simp [Nat.add_comm]
    | cons length lengths ih => rw [List.foldr_cons, ih, List.foldr_cons, Nat.add_assoc]
  exact hsum _

theorem dayNumber_day (d : Date) (n : Nat) :
    dayNumber { d with day := n + 1 } = dayNumber { d with day := 1 } + n := by
  rw [dayNumber, dayNumber, ordinal_day]
  push_cast
  omega

theorem daysFromSunday_day (d : Date) (n : Nat) :
    daysFromSunday { d with day := n + 1 } = (daysFromSunday { d with day := 1 } + n) % 7 := by
  rw [daysFromSunday, daysFromSunday, dayNumber_day]
  omega

theorem daysFromSunday_lt (d : Date) : d.daysFromSunday < 7 := by
  rw [daysFromSunday]
  omega

/-- Every month has a day, and none has more than two letters can show. -/
theorem daysInMonth_bounds (year : Int) (month : Nat) :
    0 < daysInMonth year month ∧ daysInMonth year month ≤ 31 := by
  have hall : ∀ length ∈ monthLengths year, 0 < length ∧ length ≤ 31 := by
    cases hleap : isLeap year <;> simp [monthLengths, hleap]
  rw [daysInMonth, List.getD_eq_getElem?_getD]
  cases hmonth : (monthLengths year)[month - 1]? with
  | none => decide
  | some length => exact hall length (List.mem_of_getElem? hmonth)

/-- A leap year has 366 days, any other 365. -/
theorem daysBeforeYear_succ (year : Int) :
    daysBeforeYear (year + 1) = daysBeforeYear year + if isLeap year then 366 else 365 := by
  have hleap : isLeap year = true ↔ year % 4 = 0 ∧ (year % 100 ≠ 0 ∨ year % 400 = 0) := by
    simp [isLeap]
  rw [daysBeforeYear, Int.add_sub_cancel, daysBeforeYear]
  split
  · next h =>
    rw [hleap] at h
    omega
  · next h =>
    rw [hleap] at h
    omega

/-- A month has as many days as lie between its first and the first of the next one, which is the
day behind its last. -/
theorem dayNumber_nextMonth (h : d.isValid = true) :
    d.nextMonth.dayNumber = dayNumber { d with day := 1 } + daysInMonth d.year d.month := by
  obtain ⟨year, month, day⟩ := d
  have hmonth : 1 ≤ month ∧ month ≤ 12 := by
    simp only [isValid, Bool.and_eq_true, decide_eq_true_eq] at h
    exact ⟨h.1.1.1, h.1.1.2⟩
  by_cases hlast : month = 12
  · subst hlast
    have hyear := daysBeforeYear_succ year
    cases hleap : isLeap year <;> rw [hleap] at hyear <;>
      simp [nextMonth, dayNumber, ordinal, daysInMonth, monthLengths, hleap, hyear] <;> omega
  · have hlength : (monthLengths year)[month - 1]? = some (daysInMonth year month) := by
      have hlt : month - 1 < (monthLengths year).length := by simp [monthLengths]; omega
      rw [daysInMonth, List.getD_eq_getElem?_getD, List.getElem?_eq_getElem hlt, Option.getD_some]
    have hfirst : ordinal ⟨year, month + 1, 1⟩ =
        ordinal ⟨year, month, daysInMonth year month + 1⟩ := by
      obtain ⟨k, rfl⟩ : ∃ k, month = k + 1 := ⟨month - 1, by omega⟩
      simp only [ordinal, Nat.add_sub_cancel] at hlength ⊢
      rw [List.take_add_one, hlength, List.foldr_append]
      rfl
    rw [nextMonth, if_neg hlast, dayNumber, hfirst]
    exact dayNumber_day ⟨year, month, day⟩ (daysInMonth year month)

theorem weeks_eq (fields : List α) (h : fields ≠ []) :
    weeks fields = fields.take 7 :: weeks (fields.drop 7) := by
  cases fields with
  | nil => exact absurd rfl h
  | cons field fields => rw [weeks]; rfl

/-- Every week is a run of seven places, as long as there are any. -/
theorem getElem?_weeks (fields : List α) (i : Nat) :
    (weeks fields)[i]? =
      if 7 * i < fields.length then some ((fields.drop (7 * i)).take 7) else none := by
  induction i generalizing fields with
  | zero =>
    rcases eq_or_ne fields [] with rfl | hne
    · simp [weeks]
    · simp [weeks_eq fields hne, List.length_pos_iff, hne]
  | succ i ih =>
    rcases eq_or_ne fields [] with rfl | hne
    · simp [weeks]
    · rw [weeks_eq fields hne, List.getElem?_cons_succ, ih, List.drop_drop, List.length_drop,
        Nat.add_comm 7, Nat.mul_succ]
      exact if_congr (by omega) rfl rfl

theorem flatten_weeks (fields : List α) : (weeks fields).flatten = fields := by
  fun_induction weeks fields with
  | case1 => rfl
  | case2 field rest ih => rw [List.flatten_cons, ih, List.cons_append, List.take_append_drop]

theorem weeks_eq_some_iff {fields week : List α} {i : Nat} :
    (weeks fields)[i]? = some week ↔
      7 * i < fields.length ∧ (fields.drop (7 * i)).take 7 = week := by
  rw [getElem?_weeks]
  split
  · next h => simp [h]
  · next h => simp [h]

theorem getElem?_week {fields week : List α} {i : Nat} (h : (weeks fields)[i]? = some week)
    {column : Nat} (hcolumn : column < 7) : week[column]? = fields[7 * i + column]? := by
  obtain ⟨-, rfl⟩ := weeks_eq_some_iff.mp h
  rw [List.getElem?_take_of_lt hcolumn, List.getElem?_drop]

theorem length_le_of_mem_weeks {fields week : List α} (h : week ∈ weeks fields) :
    week.length ≤ 7 := by
  obtain ⟨i, hi⟩ := List.getElem?_of_mem h
  obtain ⟨-, rfl⟩ := weeks_eq_some_iff.mp hi
  exact List.length_take_le _ _

/-- Only the last week can be shorter than the others. -/
theorem length_of_weeks {fields week : List α} {i : Nat} (h : (weeks fields)[i]? = some week)
    (hlast : i + 1 < (weeks fields).length) : week.length = 7 := by
  obtain ⟨-, rfl⟩ := weeks_eq_some_iff.mp h
  have hnext := (weeks_eq_some_iff.mp (List.getElem?_eq_getElem hlast)).1
  rw [List.length_take, List.length_drop]
  omega

/-- Places in front of the first day are blank, and the days follow. -/
theorem getElem?_monthFields (lead days k : Nat) :
    (monthFields lead days)[k]? =
      if k < lead then some none
      else if k < lead + days then some (some (k - lead + 1)) else none := by
  rw [monthFields, List.getElem?_append, List.length_replicate, List.getElem?_map]
  split
  · next hk => simp [hk]
  · next hk =>
    split
    · rw [List.getElem?_range (by omega)]
      rfl
    · rw [List.getElem?_eq_none (by simp; omega)]
      rfl

/-- Weeks that hold the days of a month, one after the other, from Sunday to Saturday. -/
structure Fills (d : Date) (length : Nat) (weeks : List (List (Option Nat))) : Prop where
  days : weeks.flatten.filterMap id = List.range' 1 length
  weekday : ∀ week ∈ weeks, ∀ (column day : Nat), week[column]? = some (some day) →
    daysFromSunday { d with day } = column
  /-- A week has seven days unless it is the first or the last. -/
  full : ∀ (i : Nat) (week : List (Option Nat)), weeks[i]? = some week → 0 < i →
    i + 1 < weeks.length → week.length = 7 ∧ none ∉ week
  notEmpty : ∀ week ∈ weeks, ∃ day, some day ∈ week

/-- The weeks of the month in which a date lies. -/
def monthWeeks (d : Date) : List (List (Option Nat)) :=
  weeks (monthFields (daysFromSunday { d with day := 1 }) (daysInMonth d.year d.month))

/-- The places are as many as the blanks in front and the days, so that the weeks hold the days from
the column of the first one on. -/
theorem fills_monthWeeks (d : Date) : Fills d (daysInMonth d.year d.month) d.monthWeeks := by
  have hlead := daysFromSunday_lt { d with day := 1 }
  have hdays := (daysInMonth_bounds d.year d.month).1
  have hweekday := daysFromSunday_day d
  unfold monthWeeks
  generalize daysFromSunday { d with day := 1 } = lead at hlead hweekday
  generalize daysInMonth d.year d.month = days at hdays
  have hfields : (monthFields lead days).length = lead + days := by simp [monthFields]
  constructor
  · rw [flatten_weeks, monthFields, List.filterMap_append]
    simp [List.range'_eq_map_range, Nat.add_comm]
  · intro week hweek column day hday
    obtain ⟨i, hi⟩ := List.getElem?_of_mem hweek
    have hcolumn : column < 7 :=
      Nat.lt_of_lt_of_le (List.getElem?_eq_some_iff.mp hday).1 (length_le_of_mem_weeks hweek)
    rw [getElem?_week hi hcolumn, getElem?_monthFields] at hday
    split at hday
    · cases hday
    · split at hday
      · obtain rfl : 7 * i + column - lead + 1 = day := by simpa using hday
        rw [hweekday]
        omega
      · cases hday
  · intro i week hi hfirst hlast
    refine ⟨length_of_weeks hi hlast, fun hblank => ?_⟩
    obtain ⟨column, hcolumn⟩ := List.getElem?_of_mem hblank
    have hlt := (List.getElem?_eq_some_iff.mp hcolumn).1
    have hlength := length_of_weeks hi hlast
    rw [getElem?_week hi (by omega), getElem?_monthFields, if_neg (by omega)] at hcolumn
    split at hcolumn <;> cases hcolumn
  · intro week hweek
    obtain ⟨i, hi⟩ := List.getElem?_of_mem hweek
    have hstart := (weeks_eq_some_iff.mp hi).1
    rw [hfields] at hstart
    have hday : week[lead - 7 * i]? = some (some (7 * i + (lead - 7 * i) - lead + 1)) := by
      rw [getElem?_week hi (by omega), getElem?_monthFields, if_neg (by omega), if_pos (by omega)]
    exact ⟨_, List.mem_of_getElem? hday⟩

/-- A day stands at the right end of two letters, with a blank behind it. -/
def fieldLetters : Option Nat → List Char
  | none => [' ', ' ', ' ']
  | some day => (Number.digits day).leftpad 2 ' ' ++ [' ']

/-- The three letters in a column of a row that goes on with blanks behind its end. -/
def columnLetters (row : List Char) (column : Nat) : List Char :=
  (List.range 3).map fun i => row.getD (3 * column + i) ' '

/-- A row that shows a week: there is nothing in a column but what is in it on this week. -/
structure Shows (week : List (Option Nat)) (row : String) : Prop where
  length_le : week.length ≤ 7
  column : ∀ column,
    columnLetters row.toList column = fieldLetters (week[column]?.getD none)

/-- What is printed for a day, letter by letter. -/
theorem toList_fieldText (field : Option Nat) : (fieldText field).toList = fieldLetters field := by
  cases field with
  | none => rfl
  | some day =>
    rw [fieldText, String.toList_append, Text.padLeft, String.toList_append, Text.replicate,
      String.toList_ofList, String.toList_ofList, String.length_ofList]
    rfl

/-- A day of a month takes three letters. -/
theorem length_fieldLetters {field : Option Nat} (h : ∀ day ∈ field, day ≤ 31) :
    (fieldLetters field).length = 3 := by
  cases field with
  | none => rfl
  | some day =>
    have hday : day ≤ 31 := h day rfl
    have hall : ∀ day < 32, (Number.digits day).length ≤ 2 := by decide
    have hdigits := hall day (by omega)
    simp [fieldLetters, List.leftpad]
    omega

/-- Days are printed in blanks and digits. -/
theorem eq_or_isDigit_of_mem_fieldLetters {field : Option Nat} {c : Char}
    (h : c ∈ fieldLetters field) : c = ' ' ∨ c.isDigit = true := by
  cases field with
  | none => simp_all [fieldLetters]
  | some day =>
    rw [fieldLetters, List.leftpad, List.mem_append, List.mem_append, List.mem_singleton] at h
    rcases h with (h | h) | h
    · exact .inl (List.eq_of_mem_replicate h)
    · exact .inr ((Number.decimal_digits day).isDigit c h)
    · exact .inl h

theorem toList_weekText (week : List (Option Nat)) :
    (weekText week).toList = Chars.trimEnd (week.flatMap fieldLetters) := by
  rw [weekText, Text.trimEnd, String.toList_ofList, String.toList_join, List.flatMap_map]
  simp only [toList_fieldText]

/-- Where every day takes three letters, the letters in a column are those of the day there. -/
theorem columnLetters_flatMap (h : ∀ field ∈ week, (fieldLetters field).length = 3)
    (column : Nat) :
    columnLetters (week.flatMap fieldLetters) column = fieldLetters (week[column]?.getD none) := by
  induction week generalizing column with
  | nil => rfl
  | cons field week ih =>
    obtain ⟨hfield, hweek⟩ := List.forall_mem_cons.mp h
    obtain ⟨a, b, c, hletters⟩ := List.length_eq_three.mp hfield
    rw [List.flatMap_cons, hletters]
    cases column with
    | zero => exact hletters.symm
    | succ column =>
      rw [List.getElem?_cons_succ, ← ih hweek column, columnLetters, columnLetters]
      refine List.map_congr_left fun i _ => ?_
      rw [Nat.mul_succ, Nat.add_right_comm]
      rfl

/-- The row of a week shows the week, though the blanks at its end are taken off. -/
theorem shows_weekText (hlength : week.length ≤ 7) (hdays : ∀ day, some day ∈ week → day ≤ 31) :
    Shows week (weekText week) where
  length_le := hlength
  column column := by
    have hblank : ∀ c ∈ week.flatMap fieldLetters, Chars.isBlank c = true → c = ' ' := by
      intro c hc hblank
      obtain ⟨field, -, hfield⟩ := List.mem_flatMap.mp hc
      refine (eq_or_isDigit_of_mem_fieldLetters hfield).resolve_right fun hdigit => ?_
      rw [Chars.isBlank_of_isDigit hdigit] at hblank
      cases hblank
    have hthree : ∀ field ∈ week, (fieldLetters field).length = 3 := by
      intro field hfield
      refine length_fieldLetters fun day hday => hdays day ?_
      rwa [← Option.mem_def.mp hday]
    rw [← columnLetters_flatMap hthree, toList_weekText, columnLetters, columnLetters]
    exact List.map_congr_left fun i _ => Chars.getD_trimEnd hblank _

/-- A week is printed in one line. -/
theorem newline_not_mem_weekText (week : List (Option Nat)) : '\n' ∉ (weekText week).toList := by
  intro h
  rw [toList_weekText] at h
  obtain ⟨field, -, hfield⟩ :=
    List.mem_flatMap.mp ((Chars.dropEndWhile_prefix Chars.isBlank _).subset h)
  have hletter := eq_or_isDigit_of_mem_fieldLetters hfield
  revert hletter
  decide

/-- So is a year, whatever it is filled up with. -/
theorem newline_not_mem_yearPlaces (padding : DateTime.Padding) (year : Int) :
    '\n' ∉ DateTime.yearPlaces padding year := by
  have hdigits : ∀ n, '\n' ∉ Number.digits n := fun n => (Number.decimal_digits n).not_mem rfl
  have hplaces : ∀ (width : Nat) (padding : DateTime.Padding) (sign : Bool),
      '\n' ∉ DateTime.places width padding sign year := by
    intro width padding sign
    unfold DateTime.places
    cases padding <;> simp only <;> split <;> (try split) <;> simp [hdigits]
  unfold DateTime.yearPlaces
  split
  · exact hplaces _ _ _
  · split <;> exact hplaces _ _ _

/-- The line with the name of the month and the year. -/
theorem newline_not_mem_title (d : Date) :
    '\n' ∉ (Text.trimEnd (Text.center 20 d.monthTitle)).toList := by
  have hname : '\n' ∉ d.monthName.toList := by
    have hall : ∀ name ∈ monthNames, '\n' ∉ name.toList := by decide
    rw [monthName, List.getD_eq_getElem?_getD]
    cases hmonth : monthNames[d.month - 1]? with
    | none => simp
    | some name => exact hall name (List.mem_of_getElem? hmonth)
  intro h
  rw [Text.trimEnd, String.toList_ofList] at h
  have hmem := (Chars.dropEndWhile_prefix Chars.isBlank _).subset h
  simp [Text.center, Text.replicate, monthTitle, hname, newline_not_mem_yearPlaces] at hmem

/-- The lines of a calendar: a title, the names of the weekdays and the weeks. -/
theorem splitOn_monthCalendar (d : Date) :
    Text.splitOn d.monthCalendar '\n' = Text.trimEnd (Text.center 20 d.monthTitle) ::
      "Su Mo Tu We Th Fr Sa" :: d.monthWeeks.map weekText := by
  refine Text.splitOn_intercalate (fun line hline => ?_) (List.cons_ne_nil _ _)
  rcases List.mem_cons.mp hline with rfl | hline
  · exact newline_not_mem_title d
  · rcases List.mem_cons.mp hline with rfl | hline
    · decide
    · obtain ⟨week, -, rfl⟩ := List.mem_map.mp hline
      exact newline_not_mem_weekText week

/-- The rows show the weeks of the month one after the other. -/
theorem shows_monthWeeks (d : Date) :
    List.Forall₂ Shows d.monthWeeks (d.monthWeeks.map weekText) := by
  rw [List.forall₂_map_right_iff, List.forall₂_same]
  intro week hweek
  refine shows_weekText (length_le_of_mem_weeks hweek) fun day hday => ?_
  have hmem : day ∈ List.range' 1 (daysInMonth d.year d.month) := by
    rw [← (fills_monthWeeks d).days, List.mem_filterMap]
    exact ⟨some day, List.mem_flatten_of_mem hweek hday, rfl⟩
  have hbounds := (daysInMonth_bounds d.year d.month).2
  rw [List.mem_range'_1] at hmem
  omega

end PocketUnix.Date

namespace PocketUnix.Evaluation

/-- Below a title and the names of the weekdays `cal` prints the weeks of the month: all its days in
their order, each in the column of its weekday, and nothing else. -/
theorem month_by_cal (x : Context) (args : List String) (m : Machine) {d : Date}
    (hd : x.now.date = d) (h : d.isValid = true) :
    ∃ text rows weeks length, (Command.run x ("cal" :: args) m).answer = .ok (.output text) ∧
      Text.splitOn text '\n' = Text.trimEnd (Text.center 20 d.monthTitle) ::
        "Su Mo Tu We Th Fr Sa" :: rows ∧
      List.Forall₂ Date.Shows weeks rows ∧
      d.nextMonth.dayNumber = Date.dayNumber { d with day := 1 } + (length : Nat) ∧
      d.Fills length weeks := by
  have hn : Command.ofName? "cal" = some (.host .cal) := by decide +kernel
  have hanswer : (Command.run x ("cal" :: args) m).answer = .ok (.output d.monthCalendar) := by
    rw [Command.run_plain x args m hn nofun nofun, ← hd]
    rfl
  exact ⟨d.monthCalendar, _, d.monthWeeks, Date.daysInMonth d.year d.month, hanswer,
    d.splitOn_monthCalendar, d.shows_monthWeeks, Date.dayNumber_nextMonth h,
    d.fills_monthWeeks⟩

/-- A month that begins on a Sunday and ends on a Saturday. -/
theorem month_by_cal_february :
    let rows := [" 1  2  3  4  5  6  7", " 8  9 10 11 12 13 14", "15 16 17 18 19 20 21",
      "22 23 24 25 26 27 28"]
    let d : Date := ⟨2026, 2, 14⟩
    d.isValid = true ∧
      (Command.run ⟨"", ⟨d, 0, 0⟩, []⟩ ["cal"] Sample.machine).answer = .ok (.output
        (Text.joinLines ("   February 2026" :: "Su Mo Tu We Th Fr Sa" :: rows))) ∧
      ∃ weeks, List.Forall₂ Date.Shows weeks rows ∧ d.Fills 28 weeks := by
  intro rows d
  have hvalid : d.isValid = true := by decide
  obtain ⟨text, lines, weeks, length, hanswer, hlines, hshows, hlength, hfills⟩ :=
    month_by_cal ⟨"", ⟨d, 0, 0⟩, []⟩ [] Sample.machine rfl hvalid
  have hprinted : (Command.run ⟨"", ⟨d, 0, 0⟩, []⟩ ["cal"] Sample.machine).answer = .ok (.output
      (Text.joinLines ("   February 2026" :: "Su Mo Tu We Th Fr Sa" :: rows))) := by
    decide +kernel
  obtain rfl : text = _ := congrArg Reply.text (Except.ok.inj (hanswer.symm.trans hprinted))
  obtain rfl : lines = rows := by
    have hsplit : Text.splitOn (Text.joinLines ("   February 2026" :: "Su Mo Tu We Th Fr Sa" ::
        rows)) '\n' = "   February 2026" :: "Su Mo Tu We Th Fr Sa" :: rows := by decide +kernel
    exact (List.cons.inj (List.cons.inj (hlines.symm.trans hsplit)).2).2
  obtain rfl : length = 28 := by
    have hdays : d.nextMonth.dayNumber = Date.dayNumber { d with day := 1 } + (28 : Nat) := by
      decide
    exact Int.ofNat.inj (Int.add_left_cancel (hlength.symm.trans hdays))
  exact ⟨hvalid, hprinted, weeks, hshows, hfills⟩

end PocketUnix.Evaluation
