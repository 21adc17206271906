import PocketUnix.Json.Basic
import PocketUnix.Number.Shortest

/-!
# Writing JSON

Compact text, and text with one item to a line, indented by two blanks for each level. A
floating-point number has the fewest digits that read back. It is written with a point if its
leading digit stands between the fifth place behind the point and the sixteenth before it, else
with an exponent.
-/

namespace PocketUnix.Json

def hexDigit (n : Nat) : Char := (Nat.digitChar n)

def escapeChar (c : Char) : List Char :=
  if c = '"' then ['\\', '"']
  else if c = '\\' then ['\\', '\\']
  else if c = '\x08' then ['\\', 'b']
  else if c = '\t' then ['\\', 't']
  else if c = '\n' then ['\\', 'n']
  else if c = '\x0c' then ['\\', 'f']
  else if c = '\r' then ['\\', 'r']
  else if c.toNat < 0x20 then
    ['\\', 'u', '0', '0', hexDigit (c.toNat / 16), hexDigit (c.toNat % 16)]
  else [c]

def quote (s : String) : String :=
  .ofList ('"' :: s.toList.flatMap escapeChar ++ ['"'])

/-- A decimal whose leading digit is in the place `lead`, the ones being place 0. -/
def decimalText (ds : List Char) (lead : Int) : List Char :=
  let count : Int := ds.length
  if 0 ≤ lead && lead < 16 then
    if count ≤ lead + 1 then
      ds ++ List.replicate (lead + 1 - count).toNat '0' ++ ['.', '0']
    else ds.take (lead + 1).toNat ++ '.' :: ds.drop (lead + 1).toNat
  else if -5 ≤ lead && lead < 0 then
    '0' :: '.' :: List.replicate (-lead - 1).toNat '0' ++ ds
  else
    let head := match ds with
      | [] => []
      | [d] => [d]
      | d :: rest => d :: '.' :: rest
    let sign := if lead < 0 then '-' else '+'
    head ++ 'e' :: sign :: Number.digits lead.natAbs

def floatText (x : Binary64) : String :=
  let body :=
    if x.pattern = 0 then ['0', '.', '0']
    else
      let d := x.shortest
      let ds := Number.digits d.digits
      decimalText ds (d.exponent + ds.length - 1)
  .ofList (if x.negative then '-' :: body else body)

def integerText (n : Int) : String :=
  .ofList (if n < 0 then '-' :: Number.digits n.natAbs else Number.digits n.natAbs)

mutual

def compact : Json → String
  | .null => "null"
  | .bool value => if value then "true" else "false"
  | .integer value => integerText value
  | .float value => floatText value
  | .string value => quote value
  | .array items => "[" ++ ",".intercalate (compactItems items) ++ "]"
  | .object members => "\x7b" ++ ",".intercalate (compactMembers members) ++ "\x7d"

def compactItems : List Json → List String
  | [] => []
  | value :: rest => value.compact :: compactItems rest

def compactMembers : List (String × Json) → List String
  | [] => []
  | (name, value) :: rest => (quote name ++ ":" ++ value.compact) :: compactMembers rest

end

def indentation (level : Nat) : String := .ofList (List.replicate (2 * level) ' ')

/-- Rows between brackets, each on a line of its own at `level + 1`. -/
def block (level : Nat) (opening closing : String) (rows : List String) : String :=
  if rows.isEmpty then opening ++ closing
  else
    let start := "\n" ++ indentation (level + 1)
    opening ++ start ++ ("," ++ start).intercalate rows ++ "\n" ++ indentation level ++ closing

mutual

def prettyAt (level : Nat) : Json → String
  | .null => "null"
  | .bool value => if value then "true" else "false"
  | .integer value => integerText value
  | .float value => floatText value
  | .string value => quote value
  | .array items => block level "[" "]" (prettyItems (level + 1) items)
  | .object members => block level "\x7b" "\x7d" (prettyMembers (level + 1) members)

def prettyItems (level : Nat) : List Json → List String
  | [] => []
  | value :: rest => prettyAt level value :: prettyItems level rest

def prettyMembers (level : Nat) : List (String × Json) → List String
  | [] => []
  | (name, value) :: rest =>
    (quote name ++ ": " ++ prettyAt level value) :: prettyMembers level rest

end

def pretty (value : Json) : String := prettyAt 0 value

end PocketUnix.Json
