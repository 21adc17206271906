import PocketUnix.Text.Chars
import PocketUnix.Text.CaseTable

/-!
# Upper and lower case

Full case conversion of texts. Only two conversions look beyond a single simple mapping: a
character may have several upper-case characters, and a capital sigma at the end of a word becomes
the final sigma.
-/

namespace PocketUnix.Chars

def mapByRuns (runs : List CaseRun) (c : Char) : Char :=
  match runs.find? (·.covers c.toNat) with
  | some run => .ofNat (c.toNat + run.shift).toNat
  | none => c

def inRanges (ranges : List (Nat × Nat)) (c : Char) : Bool :=
  ranges.any fun (first, last) => first ≤ c.toNat && c.toNat ≤ last

/-- Is the first character that may not be passed over a cased one? -/
def meetsCased (s : List Char) : Bool :=
  match s.dropWhile (inRanges ignorableRanges) with
  | [] => false
  | c :: _ => inRanges casedRanges c

/-- The lower case of a character; the capital I with a dot keeps its dot as a combining mark. -/
def lowerChar (c : Char) : List Char :=
  if c.toNat < 0x80 then [c.toLower]
  else if c = '\u0130' then ['i', '\u0307']
  else [mapByRuns lowerRuns c]

/-- The lower case of `s`, which stands behind the reversed text `before`. -/
def lowerFrom (before : List Char) : List Char → List Char
  | [] => []
  | c :: cs =>
    let small :=
      if c = 'Σ' then
        if meetsCased before && !meetsCased cs then ['ς'] else ['σ']
      else lowerChar c
    small ++ lowerFrom (c :: before) cs

def toLower (s : List Char) : List Char := lowerFrom [] s

def upperChar (c : Char) : List Char :=
  if c.toNat < 0x80 then [c.toUpper]
  else
    match upperExpansions.lookup c.toNat with
    | some expansion => expansion.map Char.ofNat
    | none => [mapByRuns upperRuns c]

def toUpper (s : List Char) : List Char := s.flatMap upperChar

end PocketUnix.Chars

namespace PocketUnix.Text

def toLower (s : String) : String := .ofList (Chars.toLower s.toList)

def toUpper (s : String) : String := .ofList (Chars.toUpper s.toList)

end PocketUnix.Text
