import PocketUnix.Text.Chars

/-!
# Operations on texts

The character-list functions of `Chars`, on `String`.
-/

namespace PocketUnix.Text

def reverse (s : String) : String := .ofList s.toList.reverse

def trim (s : String) : String := .ofList (Chars.trim s.toList)

def trimStart (s : String) : String := .ofList (Chars.trimStart s.toList)

def trimEnd (s : String) : String := .ofList (Chars.trimEnd s.toList)

def isBlank (s : String) : Bool := s.toList.all Chars.isBlank

def dropStart (c : Char) (s : String) : String := .ofList (s.toList.dropWhile (· == c))

def dropEnd (c : Char) (s : String) : String := .ofList (Chars.dropEndWhile (· == c) s.toList)

def startsWith (s head : String) : Bool := head.toList.isPrefixOf s.toList

def endsWith (s tail : String) : Bool := tail.toList.isSuffixOf s.toList

def stripStart? (head s : String) : Option String :=
  (head.toList.isPrefixOf? s.toList).map String.ofList

def stripEnd? (tail s : String) : Option String :=
  (Chars.stripEnd? tail.toList s.toList).map String.ofList

def hasChar (s : String) (c : Char) : Bool := s.toList.contains c

def contains (s part : String) : Bool := Chars.occursIn part.toList s.toList

def cutAt? (sep s : String) : Option (String × String) :=
  (Chars.cutAt? sep.toList s.toList).map fun (a, b) => (.ofList a, .ofList b)

def cutWhere? (p : Char → Bool) (s : String) : Option (String × String) :=
  (Chars.cutWhere? p s.toList).map fun (a, b) => (.ofList a, .ofList b)

def cutLast? (p : Char → Bool) (s : String) : Option (String × String) :=
  (Chars.cutLast? p s.toList).map fun (a, b) => (.ofList a, .ofList b)

def splitOn (s : String) (c : Char) : List String := (s.toList.splitOn c).map String.ofList

def splitWhere (p : Char → Bool) (s : String) : List String :=
  (s.toList.splitOnP p).map String.ofList

def splitOnText (sep s : String) : List String :=
  (Chars.splitOnText sep.toList s.toList).map String.ofList

def replaceAll (old new s : String) : String :=
  .ofList (Chars.replaceAll old.toList new.toList s.toList)

def replaceFirst (old new s : String) : String :=
  .ofList (Chars.replaceFirst old.toList new.toList s.toList)

def words (s : String) : List String := (Chars.words s.toList).map String.ofList

def lines (s : String) : List String := (Chars.lines s.toList).map String.ofList

/-- The texts, one to a line. -/
def joinLines (parts : List String) : String := "\n".intercalate parts

def replicate (n : Nat) (c : Char) : String := .ofList (List.replicate n c)

/-- Blanks in front, up to `width` characters. -/
def padLeft (width : Nat) (s : String) : String := replicate (width - s.length) ' ' ++ s

/-- Blanks behind, up to `width` characters. -/
def padRight (width : Nat) (s : String) : String := s ++ replicate (width - s.length) ' '

/-- Blanks on both sides, up to `width` characters; an odd one goes behind. -/
def center (width : Nat) (s : String) : String :=
  let left := (width - s.length) / 2
  replicate left ' ' ++ s ++ replicate (width - s.length - left) ' '

end PocketUnix.Text
