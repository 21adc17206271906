import PocketUnix.Number.Binary64

/-!
# Shortest decimals

The fewest digits that read back as a given binary number, and among those the digits nearest to
it. A number reads back when it lies in the interval between the midpoints to the neighbouring
numbers; the ends belong to it when the significand is even.
-/

namespace PocketUnix.Binary64

/-- The interval of a finite magnitude that is not zero, in units of `2 ^ (exponent - 2)`: lower
end, value, upper end. Below a power of two the numbers are twice as dense. -/
def interval (x : Binary64) : Nat × Nat × Nat :=
  let m := x.significand
  let below := if m = leadingBit && 2 * leadingBit ≤ x.pattern then 1 else 2
  (4 * m - below, 4 * m, 4 * m + 2)

/-- The digits of a decimal with its exponent: `digits * 10 ^ exponent`. -/
structure Decimal where
  digits : Nat
  exponent : Int
  deriving DecidableEq, Repr

/-- The decimal nearest to the value among the multiples of `10 ^ e` that read back. -/
def onGrid? (x : Binary64) (e : Int) : Option Decimal :=
  let (low, value, high) := x.interval
  let (up, down) := scale 2 (x.exponent - 2) 1 1
  let (up, down) := scale 10 (-e) up down
  let even := x.significand % 2 == 0
  let readsBack (d : Nat) : Bool :=
    if even then low * up ≤ d * down && d * down ≤ high * up
    else low * up < d * down && d * down < high * up
  let floor := value * up / down
  let ceiling := floor + 1
  let nearFloor : Bool :=
    let twice := 2 * (value * up)
    let middle := (floor + ceiling) * down
    twice < middle || (twice == middle && floor % 2 == 0)
  match readsBack floor, readsBack ceiling with
  | true, true => some ⟨if nearFloor then floor else ceiling, e⟩
  | true, false => some ⟨floor, e⟩
  | false, true => some ⟨ceiling, e⟩
  | false, false => none

/-- The first grid with a hit, from coarse to fine. -/
def firstHit (x : Binary64) (e : Int) : Nat → Decimal
  | 0 => ⟨x.significand, e⟩
  | fuel + 1 =>
    match onGrid? x e with
    | some d => d
    | none => firstHit x (e - 1) fuel

/-- The exponent of the leading decimal digit, or one more. -/
def leadingPlace (x : Binary64) : Int :=
  let (num, den) := x.ratio
  let places (n : Nat) : Int := (Number.digits n).length
  places num - places den + 1

/-- Seventeen digits always read back, so that twenty grids below the leading place suffice. -/
def shortest (x : Binary64) : Decimal := firstHit x x.leadingPlace 20

end PocketUnix.Binary64
