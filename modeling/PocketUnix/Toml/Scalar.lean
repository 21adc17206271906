import PocketUnix.Calendar.Date
import PocketUnix.Number.Binary64
import PocketUnix.Toml.Basic

/-!
# Plain values

Booleans, numbers and moments, each written as one token.
-/

namespace PocketUnix.Toml

def digitValue (c : Char) : Nat :=
  if c.isDigit then c.toNat - '0'.toNat else c.toLower.toNat - 'a'.toNat + 10

def isHexDigit (c : Char) : Bool :=
  c.isDigit || ('a' ≤ c && c ≤ 'f') || ('A' ≤ c && c ≤ 'F')

/-- Digits with single underscores between them, without the underscores. -/
def plainDigits? (isDigit : Char → Bool) (s : List Char) : Option (List Char) :=
  let groups := s.splitOn '_'
  if groups.all fun group => !group.isEmpty && group.all isDigit then some groups.flatten
  else none

def hasLeadingZero (digits : List Char) : Bool := digits.head? == some '0' && 1 < digits.length

/-- A sign and what follows it. -/
def splitSign : List Char → Bool × List Char
  | '-' :: rest => (true, rest)
  | '+' :: rest => (false, rest)
  | s => (false, s)

def natInBase (base : Nat) (digits : List Char) : Nat :=
  digits.foldl (fun n c => base * n + digitValue c) 0

def integer? (s : List Char) : Option Int :=
  match s with
  | '0' :: 'x' :: rest => (plainDigits? isHexDigit rest).map fun ds => natInBase 16 ds
  | '0' :: 'o' :: rest =>
    (plainDigits? (fun c => '0' ≤ c && c ≤ '7') rest).map fun ds => natInBase 8 ds
  | '0' :: 'b' :: rest =>
    (plainDigits? (fun c => c == '0' || c == '1') rest).map fun ds => natInBase 2 ds
  | _ =>
    let (negative, rest) := splitSign s
    match plainDigits? Char.isDigit rest with
    | none => none
    | some ds =>
      if hasLeadingZero ds then none
      else
        let n : Int := Number.ofDigits ds
        some (if negative then -n else n)

def isExponent (s : List Char) : Bool := (plainDigits? Char.isDigit (splitSign s).2).isSome

/-- A number with a point or an exponent that is finite, or the name of a value that is not. -/
def isFloat (s : List Char) : Bool :=
  let body := (splitSign s).2
  if body = ['i', 'n', 'f'] || body = ['n', 'a', 'n'] then true
  else
    let mantissa := body.takeWhile fun c => c != 'e' && c != 'E'
    let exponent := body.drop mantissa.length
    let whole := mantissa.takeWhile (· != '.')
    let places := mantissa.drop whole.length
    let wholeFits := match plainDigits? Char.isDigit whole with
      | some ds => !hasLeadingZero ds
      | none => false
    let placesFit := places.isEmpty || (plainDigits? Char.isDigit places.tail).isSome
    let exponentFits := exponent.isEmpty || isExponent exponent.tail
    wholeFits && placesFit && exponentFits && (!places.isEmpty || !exponent.isEmpty) &&
      (Binary64.read? (body.filter (· != '_'))).any fun x => !x.isInfinite

/-- A number of exactly so many digits, with what follows. -/
def fixedNumber? (count : Nat) (s : List Char) : Option (Nat × List Char) :=
  let ds := s.take count
  if ds.length = count && ds.all Char.isDigit then some (Number.ofDigits ds, s.drop count)
  else none

def mark? (c : Char) : List Char → Option (List Char)
  | [] => none
  | d :: rest => if d = c then some rest else none

def date? (s : List Char) : Option (List Char) := do
  let (year, s) ← fixedNumber? 4 s
  let (month, s) ← fixedNumber? 2 (← mark? '-' s)
  let (day, s) ← fixedNumber? 2 (← mark? '-' s)
  if (Date.mk year month day).isValid then some s else none

/-- The seconds of a time, which may have places. -/
def seconds? (s : List Char) : Option (List Char) := do
  let (second, s) ← fixedNumber? 2 s
  if 60 < second then none
  else
    match s with
    | '.' :: rest =>
      let places := rest.takeWhile Char.isDigit
      if places.isEmpty then none else some (rest.drop places.length)
    | _ => some s

/-- A time of day. Its seconds may be left out. -/
def clock? (s : List Char) : Option (List Char) := do
  let (hour, s) ← fixedNumber? 2 s
  let (minute, s) ← fixedNumber? 2 (← mark? ':' s)
  if 23 < hour || 59 < minute then none
  else
    match s with
    | ':' :: rest => seconds? rest
    | _ => some s

def isOffset (s : List Char) : Bool :=
  match s with
  | [] => true
  | ['Z'] => true
  | ['z'] => true
  | sign :: rest =>
    (sign == '+' || sign == '-') &&
      match (fixedNumber? 2 rest).bind fun (hour, rest) =>
          (mark? ':' rest).bind fun rest => (fixedNumber? 2 rest).map fun (minute, rest) =>
            (hour, minute, rest) with
      | some (hour, minute, []) => hour ≤ 23 && minute ≤ 59
      | _ => false

/-- A date, a time of day, or both, the latter with an optional offset. -/
def isMoment (s : List Char) : Bool :=
  match date? s with
  | some [] => true
  | some (c :: rest) =>
    (c == 'T' || c == 't' || c == ' ') && (clock? rest).any isOffset
  | none => (clock? s).any List.isEmpty

/-- The whole numbers that fit a word of 128 bits, with a sign or without. -/
def isInRange (n : Int) : Bool := -(Nat.pow 2 127 : Nat) ≤ n && n < (Nat.pow 2 128 : Nat)

def scalar? (s : List Char) : Option Item :=
  if s = "true".toList then some (.boolean true)
  else if s = "false".toList then some (.boolean false)
  else
    match integer? s with
    | some n => if isInRange n then some (.integer n) else none
    | none => if isFloat s || isMoment s then some .other else none

def isTokenChar (c : Char) : Bool :=
  c.isAlphanum || c == '_' || c == '+' || c == '-' || c == '.' || c == ':'

/-- The token at the start of a text. A date may be divided from its time by a blank. -/
def token (s : List Char) : List Char :=
  let first := s.takeWhile isTokenChar
  match date? first, s.drop first.length with
  | some [], ' ' :: rest =>
    let time := rest.takeWhile isTokenChar
    if time.any (· == ':') then first ++ ' ' :: time else first
  | _, _ => first

end PocketUnix.Toml
