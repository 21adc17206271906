import PocketUnix.Number.Binary64
import PocketUnix.Text.Case
import PocketUnix.Text.Basic

/-!
# Sorting lines

Lines are sorted by a key: the whole line or one of its fields. Lines with equal keys keep their
order; reversing turns the sorted list around as a whole.
-/

namespace PocketUnix.Filter

/-- The fields between occurrences of a separator; without one, the stretches between blanks. -/
def fields (separator : Option String) (line : String) : List String :=
  match separator with
  | none => Text.words line
  | some sep => if sep = "" then Text.words line else Text.splitOnText sep line

structure SortOrder where
  /-- The number of the field that is the key, from 1. -/
  field : Option Nat
  separator : Option String
  numeric : Bool
  folded : Bool
  deriving Repr

/-- The key of a line; a field that is missing is empty. -/
def SortOrder.key (o : SortOrder) (line : String) : String :=
  match o.field with
  | none => line
  | some k => (fields o.separator line).getD (k - 1) ""

/-- The number at the start of a text; zero if there is none. -/
def leadingNumber (s : String) : Binary64 :=
  let numeral : List Char → List Char
    | [] => []
    | c :: cs =>
      let inside (c : Char) : Bool := c.isDigit || c == '.'
      if inside c || c == '-' then c :: cs.takeWhile inside else []
  (Binary64.read? (numeral (Chars.trimStart s.toList))).getD .zero

def SortOrder.le (o : SortOrder) (a b : String) : Bool :=
  let ka := o.key a
  let kb := o.key b
  if o.numeric then (leadingNumber ka).rank ≤ (leadingNumber kb).rank
  else if o.folded then Text.toLower ka ≤ Text.toLower kb
  else ka ≤ kb

/-- Leaves out a line that equals the one in front of it. -/
def dropRepeats : List String → List String
  | [] => []
  | [line] => [line]
  | a :: b :: rest => if a = b then dropRepeats (b :: rest) else a :: dropRepeats (b :: rest)

def sortLines (o : SortOrder) (reversed unique : Bool) (lines : List String) : List String :=
  let sorted := lines.mergeSort o.le
  let sorted := if reversed then sorted.reverse else sorted
  if unique then dropRepeats sorted else sorted

end PocketUnix.Filter
