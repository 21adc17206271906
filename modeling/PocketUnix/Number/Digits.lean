/-!
# Decimal digits

Reading and writing natural numbers. A written number may carry a plus sign and has at least one
digit; one that exceeds the limit of its place is no number there.
-/

namespace PocketUnix.Number

/-- The largest number that a 64-bit word holds. -/
def wordLimit : Nat := Nat.pow 2 64 - 1

def ofDigits (digits : List Char) : Nat :=
  digits.foldl (fun n c => 10 * n + (c.toNat - '0'.toNat)) 0

def readChars? (limit : Nat) (s : List Char) : Option Nat :=
  let digits := match s with
    | '+' :: rest => rest
    | _ => s
  if digits.isEmpty || !digits.all Char.isDigit then none
  else
    let n := ofDigits digits
    if n ≤ limit then some n else none

def read? (limit : Nat) (s : String) : Option Nat := readChars? limit s.toList

def digits (n : Nat) : List Char := Nat.toDigits 10 n

/-- The digits of `n` behind zeros, at least `width` of them. -/
def zeroPadded (width n : Nat) : List Char :=
  let ds := digits n
  List.replicate (width - ds.length) '0' ++ ds

/-- `num / den` rounded to the nearest natural number, a half to the even neighbour. -/
def divRound (num den : Nat) : Nat :=
  let q := num / den
  let r := num % den
  if 2 * r < den then q else if den < 2 * r then q + 1 else q + q % 2

/-- `num / den` with a given number of decimal places, a half going to the even neighbour. -/
def fixed (places num den : Nat) : String :=
  let unit := Nat.pow 10 places
  let scaled := divRound (num * unit) den
  let whole := digits (scaled / unit)
  if places = 0 then .ofList whole
  else .ofList (whole ++ '.' :: zeroPadded places (scaled % unit))

end PocketUnix.Number
