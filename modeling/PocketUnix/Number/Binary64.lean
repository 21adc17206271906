import PocketUnix.Number.Digits

/-!
# Binary floating-point numbers of 64 bits

A number is a sign and the 63-bit pattern of its magnitude. Patterns are ordered as the magnitudes
that they stand for, so that comparing numbers is comparing integers. All arithmetic is exact on
natural numbers with one rounding at the end.
-/

namespace PocketUnix

structure Binary64 where
  negative : Bool
  pattern : Nat
  deriving DecidableEq, Repr

namespace Binary64

/-- The weight of the leading bit of a significand. Smaller patterns are their own significands. -/
def leadingBit : Nat := Nat.pow 2 52

def infinityPattern : Nat := 0x7FF * leadingBit

def zero : Binary64 := ⟨false, 0⟩

def nan : Binary64 := ⟨false, infinityPattern + leadingBit / 2⟩

def isInfinite (x : Binary64) : Bool := x.pattern == infinityPattern

def isNaN (x : Binary64) : Bool := infinityPattern < x.pattern

/-- The position of a number in the total order, in which `-0` stands before `0`. -/
def rank (x : Binary64) : Int := if x.negative then -(x.pattern : Int) - 1 else x.pattern

/-- A finite magnitude is `significand * 2 ^ exponent`. -/
def significand (x : Binary64) : Nat :=
  if x.pattern < leadingBit then x.pattern else leadingBit + x.pattern % leadingBit

def exponent (x : Binary64) : Int :=
  if x.pattern < leadingBit then -1074 else (x.pattern / leadingBit : Nat) - 1075

/-- `num * base ^ e / den` as a quotient of natural numbers. -/
def scale (base : Nat) (e : Int) (num den : Nat) : Nat × Nat :=
  if 0 ≤ e then (num * Nat.pow base e.toNat, den) else (num, den * Nat.pow base (-e).toNat)

/-- The number nearest to `num / den`, where a half goes to the even pattern and what is too
large becomes infinite. -/
def ofRatio (negative : Bool) (num den : Nat) : Binary64 :=
  if num = 0 then ⟨negative, 0⟩
  else
    let guess : Int := (num.log2 : Int) - den.log2
    let (up, down) := scale 2 (-guess) num den
    let magnitude := if down ≤ up then guess else guess - 1
    let e := max (magnitude - 52) (-1074)
    let (up, down) := scale 2 (-e) num den
    let pattern := (e + 1074).toNat * leadingBit + Number.divRound up down
    ⟨negative, min pattern infinityPattern⟩

/-- The number nearest to `digits * 10 ^ e`. Beyond four hundred places it is zero or infinite,
whatever the digits. -/
def ofDecimal (negative : Bool) (digits : Nat) (e : Int) : Binary64 :=
  if digits = 0 then ⟨negative, 0⟩
  else
    let places := e + (Number.digits digits).length
    if 400 < places then ⟨negative, infinityPattern⟩
    else if places < -400 then ⟨negative, 0⟩
    else
      let (num, den) := scale 10 e digits 1
      ofRatio negative num den

/-- The quotient of two natural numbers that equals the magnitude. -/
def ratio (x : Binary64) : Nat × Nat := scale 2 x.exponent x.significand 1

/-- The rounded product of finite numbers. -/
def mul (x y : Binary64) : Binary64 :=
  let (a, b) := x.ratio
  let (c, d) := y.ratio
  ofRatio (x.negative != y.negative) (a * c) (b * d)

/-- The rounded quotient of finite numbers, for a divisor that is not zero. -/
def div (x y : Binary64) : Binary64 :=
  let (a, b) := x.ratio
  let (c, d) := y.ratio
  ofRatio (x.negative != y.negative) (a * d) (b * c)

/-- A fixed number of decimal places, rounded from the exact value. -/
def toFixed (places : Nat) (x : Binary64) : String :=
  if x.isNaN then "NaN"
  else
    let sign := if x.negative then "-" else ""
    if x.isInfinite then sign ++ "inf"
    else
      let (num, den) := x.ratio
      sign ++ Number.fixed places num den

/-- Digits, a point and an exponent, at least one digit in all; or a name of a value that is not
finite, in any case. -/
def readMagnitude? (negative : Bool) (s : List Char) : Option Binary64 :=
  let name := s.map Char.toLower
  if name = "inf".toList || name = "infinity".toList then some ⟨negative, infinityPattern⟩
  else if name = "nan".toList then some { nan with negative }
  else
    let whole := s.takeWhile Char.isDigit
    let rest := s.dropWhile Char.isDigit
    let (places, rest) := match rest with
      | '.' :: tail => (tail.takeWhile Char.isDigit, tail.dropWhile Char.isDigit)
      | _ => ([], rest)
    if whole.isEmpty && places.isEmpty then none
    else
      let digits := Number.ofDigits (whole ++ places)
      let finish (e : Int) := some (ofDecimal negative digits (e - places.length))
      match rest with
      | [] => finish 0
      | c :: tail =>
        if c.toLower != 'e' then none
        else
          let (below, ds) := match tail with
            | '-' :: ds => (true, ds)
            | '+' :: ds => (false, ds)
            | _ => (false, tail)
          if ds.isEmpty || !ds.all Char.isDigit then none
          else
            let e : Int := Number.ofDigits ds
            finish (if below then -e else e)

def read? (s : List Char) : Option Binary64 :=
  match s with
  | '-' :: rest => readMagnitude? true rest
  | '+' :: rest => readMagnitude? false rest
  | _ => readMagnitude? false s

end Binary64

end PocketUnix
