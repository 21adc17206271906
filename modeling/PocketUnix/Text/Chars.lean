/-!
# Cutting and searching character lists

The text functions of this library are computed on lists of characters. Splitting at single
characters is `List.splitOn`; this module adds what is cut at blanks, at line ends and at
occurrences of another text.
-/

namespace PocketUnix.Chars

/-- The characters with the Unicode property White_Space. -/
def isBlank (c : Char) : Bool :=
  let n := c.toNat
  (0x9 ≤ n && n ≤ 0xD) || n == 0x20 || n == 0x85 || n == 0xA0 || n == 0x1680 ||
    (0x2000 ≤ n && n ≤ 0x200A) || n == 0x2028 || n == 0x2029 || n == 0x202F || n == 0x205F ||
    n == 0x3000

/-- The control characters: the general category Cc. -/
def isControl (c : Char) : Bool :=
  c.toNat < 0x20 || (0x7F ≤ c.toNat && c.toNat < 0xA0)

/-- What stands before the longest tail of characters that satisfy `p`. -/
def dropEndWhile (p : Char → Bool) (s : List Char) : List Char :=
  (s.reverse.dropWhile p).reverse

def trimStart (s : List Char) : List Char := s.dropWhile isBlank

def trimEnd (s : List Char) : List Char := dropEndWhile isBlank s

def trim (s : List Char) : List Char := trimEnd (trimStart s)

/-- Removes `tail` from the end of `s`, if `s` ends so. -/
def stripEnd? (tail s : List Char) : Option (List Char) :=
  (tail.reverse.isPrefixOf? s.reverse).map List.reverse

/-- Does `part` occur in `s`? -/
def occursIn (part : List Char) : List Char → Bool
  | [] => part.isEmpty
  | c :: cs => part.isPrefixOf (c :: cs) || occursIn part cs

/-- What stands before and after the first occurrence of `sep`. -/
def cutAt? (sep : List Char) : List Char → Option (List Char × List Char)
  | [] => if sep.isEmpty then some ([], []) else none
  | c :: cs =>
    match sep.isPrefixOf? (c :: cs) with
    | some rest => some ([], rest)
    | none => (cutAt? sep cs).map fun (before, after) => (c :: before, after)

/-- What stands before and after the first character that satisfies `p`, without it. -/
def cutWhere? (p : Char → Bool) : List Char → Option (List Char × List Char)
  | [] => none
  | c :: cs =>
    if p c then some ([], cs)
    else (cutWhere? p cs).map fun (before, after) => (c :: before, after)

/-- What stands before and after the last character that satisfies `p`, without it. -/
def cutLast? (p : Char → Bool) (s : List Char) : Option (List Char × List Char) :=
  (cutWhere? p s.reverse).map fun (after, before) => (before.reverse, after.reverse)

/-- Puts a character in front of the first piece. -/
def consFirst (c : Char) : List (List Char) → List (List Char)
  | [] => [[c]]
  | piece :: pieces => (c :: piece) :: pieces

/-- The pieces between the occurrences of `sep`, found from the left, after leaving out the
first `skip` characters. -/
def splitAround (sep : List Char) : Nat → List Char → List (List Char)
  | _, [] => [[]]
  | skip + 1, _ :: cs => splitAround sep skip cs
  | 0, c :: cs =>
    if sep.isPrefixOf (c :: cs) then [] :: splitAround sep (sep.length - 1) cs
    else consFirst c (splitAround sep 0 cs)

/-- The pieces between the occurrences of a text that is not empty. -/
def splitOnText (sep s : List Char) : List (List Char) := splitAround sep 0 s

/-- Every occurrence of `old` becomes `new`. -/
def replaceAll (old new s : List Char) : List Char := new.intercalate (splitOnText old s)

/-- The first occurrence of `old` becomes `new`. -/
def replaceFirst (old new s : List Char) : List Char :=
  match cutAt? old s with
  | some (before, after) => before ++ new ++ after
  | none => s

/-- The longest stretches without blanks. -/
def words (s : List Char) : List (List Char) :=
  (s.splitOnP isBlank).filter fun w => !w.isEmpty

/-- A carriage return in front of a line end belongs to the line end. -/
def dropReturn (line : List Char) : List Char :=
  if line.getLast? = some '\r' then line.dropLast else line

/-- The lines among the pieces between newlines: the last piece is a line only if it holds
something, and it keeps its carriage return, as no line end follows. -/
def linesOfPieces : List (List Char) → List (List Char)
  | [] => []
  | [last] => if last.isEmpty then [] else [last]
  | piece :: next :: rest => dropReturn piece :: linesOfPieces (next :: rest)

def lines (s : List Char) : List (List Char) := linesOfPieces (s.splitOn '\n')

end PocketUnix.Chars
