import PocketUnix.Calendar.DateTime
import PocketUnix.Number.Digits
import PocketUnix.Text.Basic

/-!
# Formats of moments

A format is text with directives of a percent sign and a letter. A numeric directive may carry a
padding mark. Directives that ask for a time zone, and unknown ones, make the format unreadable.
-/

namespace PocketUnix.DateTime

inductive Padding where
  | none | zero | blank
  deriving DecidableEq, Repr

inductive NumberField where
  | year | century | yearOfCentury | isoYear | isoYearOfCentury
  | quarter | month | day | ordinal
  | weekFromSunday | weekFromMonday | isoWeek | daysFromSunday | dayFromMonday
  | hour | hour12 | minute | second | nanosecond | unixSeconds
  deriving DecidableEq, Repr

inductive Piece where
  | text (s : String)
  | number (field : NumberField) (padding : Padding)
  | weekday (short : Bool)
  | month (short : Bool)
  | halfDay (upper : Bool)
  /-- The fraction of the second, with the given places. -/
  | fraction (point : Bool) (places : Nat)
  /-- The fraction with a point and as many groups of three places as it needs. -/
  | briefFraction
  deriving DecidableEq, Repr

/-- A byte in two places. Its tens may exceed nine and then continue in the order of the code
points. -/
def twoPlaces (padding : Padding) (byte : Nat) : List Char :=
  let tens := byte / 10
  let ones := Char.ofNat ('0'.toNat + byte % 10)
  match tens, padding with
  | 0, .none => [ones]
  | 0, .blank => [' ', ones]
  | _, _ => [Char.ofNat ('0'.toNat + tens), ones]

/-- A number in at least `width` places, the sign among them. -/
def places (width : Nat) (padding : Padding) (sign : Bool) (n : Int) : List Char :=
  let mark := if n < 0 then ['-'] else if sign then ['+'] else []
  let ds := Number.digits n.natAbs
  let gap := width - (mark.length + ds.length)
  match padding with
  | .none => mark ++ ds
  | .zero => mark ++ List.replicate gap '0' ++ ds
  | .blank => List.replicate gap ' ' ++ mark ++ ds

/-- A year has four places, and a sign with a fifth one outside the first ten thousand years. -/
def yearPlaces (padding : Padding) (year : Int) : List Char :=
  if 1000 ≤ year && year ≤ 9999 then places 4 .none false year
  else if 0 ≤ year && year < 10000 then places 4 padding false year
  else places 5 padding true year

def byteOf (n : Int) : Nat := (n % 256).toNat

/-- The week of the year, when weeks start on the weekday that lies `since` days back. -/
def weekOfYear (d : Date) (since : Nat) : Nat := (d.ordinal + 6 - since) / 7

def numberText (t : DateTime) (field : NumberField) (padding : Padding) : List Char :=
  let d := t.date
  match field with
  | .year => yearPlaces padding d.year
  | .century => twoPlaces padding (byteOf (d.year / 100))
  | .yearOfCentury => twoPlaces padding (byteOf (d.year % 100))
  | .isoYear => yearPlaces padding d.isoWeek.1
  | .isoYearOfCentury => twoPlaces padding (byteOf (d.isoWeek.1 % 100))
  | .quarter => Number.digits ((d.month - 1) / 3 + 1)
  | .month => twoPlaces padding d.month
  | .day => twoPlaces padding d.day
  | .ordinal => places 3 padding false d.ordinal
  | .weekFromSunday => twoPlaces padding (weekOfYear d d.daysFromSunday)
  | .weekFromMonday => twoPlaces padding (weekOfYear d d.daysFromMonday)
  | .isoWeek => twoPlaces padding d.isoWeek.2
  | .daysFromSunday => Number.digits d.daysFromSunday
  | .dayFromMonday => Number.digits (d.daysFromMonday + 1)
  | .hour => twoPlaces padding t.hour
  | .hour12 => twoPlaces padding t.hour12
  | .minute => twoPlaces padding t.minute
  | .second => twoPlaces padding t.secondOfMinute
  | .nanosecond => places 9 padding false ((t.nano % nanosPerSecond : Nat) : Int)
  | .unixSeconds => places 9 padding false t.unixSeconds

def briefFraction (nano : Nat) : List Char :=
  if nano = 0 then []
  else if nano % 1000000 = 0 then '.' :: Number.zeroPadded 3 (nano / 1000000)
  else if nano % 1000 = 0 then '.' :: Number.zeroPadded 6 (nano / 1000)
  else '.' :: Number.zeroPadded 9 nano

def shorten (short : Bool) (name : String) : List Char :=
  if short then name.toList.take 3 else name.toList

def pieceText (t : DateTime) : Piece → List Char
  | .text s => s.toList
  | .number field padding => t.numberText field padding
  | .weekday short => shorten short t.date.weekdayName
  | .month short => shorten short t.date.monthName
  | .halfDay upper =>
    match upper, t.isAfternoon with
    | true, false => "AM".toList
    | true, true => "PM".toList
    | false, false => "am".toList
    | false, true => "pm".toList
  | .fraction point n =>
    (if point then ['.'] else []) ++
      Number.zeroPadded n (t.nano % nanosPerSecond / Nat.pow 10 (9 - n))
  | .briefFraction => briefFraction (t.nano % nanosPerSecond)

def render (t : DateTime) (pieces : List Piece) : String :=
  .ofList (pieces.flatMap t.pieceText)

namespace Piece

def zeroed (field : NumberField) : Piece := .number field .zero

def clock : List Piece :=
  [zeroed .hour, .text ":", zeroed .minute, .text ":", zeroed .second]

def slashed : List Piece :=
  [zeroed .month, .text "/", zeroed .day, .text "/", zeroed .yearOfCentury]

/-- What a single letter stands for. -/
def ofLetter? : Char → Option (List Piece)
  | 'A' => some [.weekday false]
  | 'a' => some [.weekday true]
  | 'B' => some [.month false]
  | 'b' | 'h' => some [.month true]
  | 'C' => some [zeroed .century]
  | 'c' => some ([.weekday true, .text " ", .month true, .text " ", .number .day .blank,
      .text " "] ++ clock ++ [.text " ", zeroed .year])
  | 'D' | 'x' => some slashed
  | 'd' => some [zeroed .day]
  | 'e' => some [.number .day .blank]
  | 'F' => some [zeroed .year, .text "-", zeroed .month, .text "-", zeroed .day]
  | 'f' => some [zeroed .nanosecond]
  | 'G' => some [zeroed .isoYear]
  | 'g' => some [zeroed .isoYearOfCentury]
  | 'H' => some [zeroed .hour]
  | 'I' => some [zeroed .hour12]
  | 'j' => some [zeroed .ordinal]
  | 'k' => some [.number .hour .blank]
  | 'l' => some [.number .hour12 .blank]
  | 'M' => some [zeroed .minute]
  | 'm' => some [zeroed .month]
  | 'n' => some [.text "\n"]
  | 'P' => some [.halfDay false]
  | 'p' => some [.halfDay true]
  | 'q' => some [zeroed .quarter]
  | 'R' => some [zeroed .hour, .text ":", zeroed .minute]
  | 'r' => some [zeroed .hour12, .text ":", zeroed .minute, .text ":", zeroed .second,
      .text " ", .halfDay true]
  | 'S' => some [zeroed .second]
  | 's' => some [.number .unixSeconds .none]
  | 'T' | 'X' => some clock
  | 't' => some [.text "\t"]
  | 'U' => some [zeroed .weekFromSunday]
  | 'u' => some [zeroed .dayFromMonday]
  | 'V' => some [zeroed .isoWeek]
  | 'v' => some [.number .day .blank, .text "-", .month true, .text "-", zeroed .year]
  | 'W' => some [zeroed .weekFromMonday]
  | 'w' => some [zeroed .daysFromSunday]
  | 'Y' => some [zeroed .year]
  | 'y' => some [zeroed .yearOfCentury]
  | '%' => some [.text "%"]
  | _ => none

/-- Only a directive for a single number can be padded otherwise. -/
def padded? (padding : Padding) (letter : Char) : Option (List Piece) :=
  match ofLetter? letter with
  | some [.number field _] => some [.number field padding]
  | _ => none

/-- The pieces of a format, unless a directive in it is unknown or cut off. -/
def ofFormat? : List Char → Option (List Piece)
  | [] => some []
  | '%' :: '-' :: c :: rest => both (padded? .none c) (ofFormat? rest)
  | '%' :: '0' :: c :: rest => both (padded? .zero c) (ofFormat? rest)
  | '%' :: '_' :: c :: rest => both (padded? .blank c) (ofFormat? rest)
  | '%' :: '.' :: 'f' :: rest => both (some [.briefFraction]) (ofFormat? rest)
  | '%' :: '.' :: '3' :: 'f' :: rest => both (some [.fraction true 3]) (ofFormat? rest)
  | '%' :: '.' :: '6' :: 'f' :: rest => both (some [.fraction true 6]) (ofFormat? rest)
  | '%' :: '.' :: '9' :: 'f' :: rest => both (some [.fraction true 9]) (ofFormat? rest)
  | '%' :: '3' :: 'f' :: rest => both (some [.fraction false 3]) (ofFormat? rest)
  | '%' :: '6' :: 'f' :: rest => both (some [.fraction false 6]) (ofFormat? rest)
  | '%' :: '9' :: 'f' :: rest => both (some [.fraction false 9]) (ofFormat? rest)
  | '%' :: c :: rest => both (ofLetter? c) (ofFormat? rest)
  | '%' :: [] => none
  | c :: rest => both (some [.text (.singleton c)]) (ofFormat? rest)
where
  both (first rest : Option (List Piece)) : Option (List Piece) :=
    match first, rest with
    | some a, some b => some (a ++ b)
    | _, _ => none

end Piece

def format? (t : DateTime) (format : String) : Option String :=
  (Piece.ofFormat? format.toList).map t.render

open Piece in
/-- The form in which `date` prints by itself. -/
def longForm (t : DateTime) : String :=
  t.render ([.weekday true, .text " ", .month true, .text " ", .number .day .blank, .text " "] ++
    clock ++ [.text " UTC ", zeroed .year])

open Piece in
/-- Month, day and time, as listings show them. -/
def label (t : DateTime) : String :=
  t.render [.month true, .text " ", .number .day .none, .text ", ", zeroed .hour, .text ":",
    zeroed .minute]

open Piece in
/-- Date and time to the second, with a given separator. -/
def stamp (separator : String) (t : DateTime) : String :=
  t.render ([zeroed .year, .text "-", zeroed .month, .text "-", zeroed .day,
    .text separator] ++ clock)

end PocketUnix.DateTime
