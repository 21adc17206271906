import PocketUnix.Text.Basic

/-!
# Permissions

A permission text has a letter for the kind of node and nine places, three each for the owner, the
group and all others: the right to read, to write and to execute. A mode says how to change the
nine bits, by octal digits or by clauses such as `u+x`.
-/

namespace PocketUnix.Permissions

def file : String := "-rw-r--r--"

def executable : String := "-rwxr-xr-x"

def directory : String := "drwxr-xr-x"

def link : String := "lrwxrwxrwx"

def kindLetter (permissions : String) : Char := permissions.toList.headD '-'

/-- The nine bits; missing places count as unset. -/
def bits (permissions : String) : List Bool :=
  let places := (permissions.toList.drop 1).take 9
  places.map (· != '-') ++ List.replicate (9 - places.length) false

def rightLetter (place : Nat) : Char :=
  if place = 0 then 'r' else if place = 1 then 'w' else 'x'

def render (letter : Char) (bits : List Bool) : String :=
  .ofList (letter :: bits.mapIdx fun k on => if on then rightLetter (k % 3) else '-')

/-- The octal digit of the three bits from `first` on. -/
def octalDigit (bits : List Bool) (first : Nat) : Char :=
  let weight (k w : Nat) : Nat := if bits.getD (first + k) false then w else 0
  Nat.digitChar (weight 0 4 + weight 1 2 + weight 2 1)

/-- The bits as octal digits behind a zero. -/
def octal (permissions : String) : String :=
  let b := bits permissions
  .ofList ['0', octalDigit b 0, octalDigit b 3, octalDigit b 6]

inductive Change where
  | add | remove | exact
  deriving DecidableEq, Repr

/-- What a clause does to the named places of the named triads. -/
structure Clause where
  triads : List Nat
  change : Change
  places : List Nat
  deriving DecidableEq, Repr

inductive Mode where
  /-- The three octal digits. -/
  | octal (digits : List Nat)
  | symbolic (clauses : List Clause)
  deriving DecidableEq, Repr

def change? : Char → Option Change
  | '+' => some .add
  | '-' => some .remove
  | '=' => some .exact
  | _ => none

/-- The triads that the letters name; all three if there is no letter. -/
def triads? (who : List Char) : Option (List Nat) :=
  if !who.all "ugoa".toList.contains then none
  else if who.isEmpty || who.contains 'a' then some [0, 1, 2]
  else some (who.map fun c => if c = 'u' then 0 else if c = 'g' then 1 else 2)

def places? (what : List Char) : Option (List Nat) :=
  if !what.all "rwxX".toList.contains then none
  else some (what.map fun c => if c = 'r' then 0 else if c = 'w' then 1 else 2)

def clause? (s : List Char) : Option Clause := do
  let isChange (c : Char) : Bool := (change? c).isSome
  let (_, what) ← Chars.cutWhere? isChange s
  let who := s.takeWhile (!isChange ·)
  let change ← change? (← s[who.length]?)
  some ⟨← triads? who, change, ← places? what⟩

def isOctal (c : Char) : Bool := '0' ≤ c && c ≤ '7'

/-- Up to four octal digits, of which the last three count, or clauses between commas. -/
def Mode.read? (s : String) : Option Mode :=
  let cs := s.toList
  if !cs.isEmpty && cs.length ≤ 4 && cs.all isOctal then
    let digits := cs.map fun c => c.toNat - '0'.toNat
    let last := digits.drop (digits.length - 3)
    some (.octal (List.replicate (3 - last.length) 0 ++ last))
  else ((cs.splitOn ',').mapM clause?).map .symbolic

def Clause.apply (c : Clause) (bits : List Bool) : List Bool :=
  bits.mapIdx fun k old =>
    if !c.triads.contains (k / 3) then old
    else if c.places.contains (k % 3) then c.change != .remove
    else c.change != .exact && old

/-- The bits of three octal digits. -/
def bitsOfDigits (digits : List Nat) : List Bool :=
  digits.flatMap fun d => [d / 4 % 2 == 1, d / 2 % 2 == 1, d % 2 == 1]

def Mode.apply (m : Mode) (permissions : String) : String :=
  let old := bits permissions
  render (kindLetter permissions) <| match m with
    | .octal digits => bitsOfDigits digits
    | .symbolic clauses => clauses.foldl (fun b c => c.apply b) old

end PocketUnix.Permissions
