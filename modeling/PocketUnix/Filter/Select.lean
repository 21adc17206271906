import PocketUnix.Number.Digits
import PocketUnix.Text.Basic

/-!
# Choosing fields and lines

Lists of positions such as `1,3-4,6-`, the fields and characters that they choose from lines, and
the distinct lines of a text with their counts.
-/

namespace PocketUnix.Filter

/-- Positions from `first` to `last`, counted from 1. -/
structure Span where
  first : Nat
  last : Nat
  deriving DecidableEq, Repr

abbrev Positions := List Span

namespace Positions

def has (p : Positions) (k : Nat) : Bool := p.any fun s => s.first ≤ k && k ≤ s.last

def span? (s : List Char) : Option Span := do
  let number? (s : List Char) : Option Nat := Number.readChars? Number.wordLimit s
  let span : Span ← match Chars.cutWhere? (· == '-') s with
    | none => (number? s).map fun n => ⟨n, n⟩
    | some (low, high) => do
      let first ← if low.isEmpty then some 1 else number? low
      let last ← if high.isEmpty then some Number.wordLimit else number? high
      some ⟨first, last⟩
  if span.first = 0 || span.last < span.first then none else some span

def read? (s : String) : Option Positions := (s.toList.splitOn ',').mapM span?

/-- The items at the chosen positions, in their order. -/
def choose {α : Type} (p : Positions) (items : List α) : List α :=
  (items.zipIdx 1).filterMap fun (item, k) => if p.has k then some item else none

end Positions

/-- The chosen fields between delimiters; a line without a delimiter stays whole. -/
def cutFields (p : Positions) (delimiter : Char) (line : String) : String :=
  if !Text.hasChar line delimiter then line
  else (String.singleton delimiter).intercalate (p.choose (Text.splitOn line delimiter))

def cutChars (p : Positions) (line : String) : String := .ofList (p.choose line.toList)

/-- The different lines in the order of their first occurrences, each with its count. -/
def countDistinct (lines : List String) : List (String × Nat) :=
  lines.eraseDups.map fun line => (line, lines.count line)

end PocketUnix.Filter
