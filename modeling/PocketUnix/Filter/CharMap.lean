import PocketUnix.Text.Basic

/-!
# Mapping characters

A set of characters is written with ranges such as `a-z`, classes such as `[:digit:]` and escapes
for newline and tab.
-/

namespace PocketUnix.Filter

/-- All characters from `first` to `last`. -/
def charRange (first last : Char) : List Char :=
  (List.range' first.toNat (last.toNat + 1 - first.toNat)).filterMap fun n =>
    if n.isValidChar then some (Char.ofNat n) else none

def startsEscape (c : Char) (rest : List Char) : Bool :=
  c == '\\' && (rest.head? == some 'n' || rest.head? == some 't')

def unescaped (c : Char) (rest : List Char) : Char :=
  if startsEscape c rest then (if rest.head? == some 'n' then '\n' else '\t') else c

/-- A range ends at the character that is written behind its dash, without escapes. A range that
would run backwards is taken letter by letter. -/
def expandRanges : List Char → List Char
  | [] => []
  | c :: cs =>
    let first := unescaped c cs
    let rest := if startsEscape c cs then cs.tail else cs
    if rest.head? = some '-' ∧ (rest[1]?.any (first ≤ ·)) then
      charRange first (rest.getD 1 first) ++ expandRanges (rest.drop 2)
    else first :: expandRanges rest
termination_by s => s.length
decreasing_by
  all_goals split <;> simp only [List.length_drop, List.length_tail, List.length_cons] <;> omega

def expandSet (spec : String) : List Char :=
  let replaced := [("[:lower:]", "a-z"), ("[:upper:]", "A-Z"), ("[:digit:]", "0-9"),
    ("[:space:]", " \t\n")].foldl (fun s (name, set) => Text.replaceAll name set s) spec
  expandRanges replaced.toList

/-- The character in the place of `c`; a second set that is too short goes on with its last
character. -/
def mapChar (old new : List Char) (c : Char) : Char :=
  match old.idxOf? c with
  | none => c
  | some k => (new[k]?.or new.getLast?).getD c

/-- Runs of one character of the set become that character. -/
def squeeze (set : List Char) : List Char → List Char
  | [] => []
  | [c] => [c]
  | a :: b :: rest =>
    if a = b && set.contains a then squeeze set (b :: rest) else a :: squeeze set (b :: rest)

end PocketUnix.Filter
