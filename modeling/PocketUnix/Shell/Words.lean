import PocketUnix.Text.Basic

/-!
# Words of a command line

Blanks separate words. A span in double or single quotes is glued to what touches it and loses its
quotes; a quote without an end runs to the end of the line. Inside quotes nothing separates.
-/

namespace PocketUnix.Shell

def isQuote (c : Char) : Bool := c == '"' || c == '\''

/-- The words of a text, inside the given quote if there is one, and behind the letters of a word
that has begun, the last letter first. -/
def scanWords : Option Char → Option (List Char) → List Char → List (List Char)
  | _, none, [] => []
  | _, some word, [] => [word.reverse]
  | some q, word, c :: cs =>
    if c = q then scanWords none word cs else scanWords (some q) (some (c :: word.getD [])) cs
  | none, word, c :: cs =>
    if isQuote c then scanWords (some c) (some (word.getD [])) cs
    else if Chars.isBlank c then
      match word with
      | none => scanWords none none cs
      | some word => word.reverse :: scanWords none none cs
    else scanWords none (some (c :: word.getD [])) cs

def words (line : String) : List String :=
  (scanWords none none line.toList).map String.ofList

/-- The parts of a text between separators outside quotes, inside the given quote at first. -/
def splitUnquoted (separator : Char) : Option Char → List Char → List (List Char)
  | _, [] => [[]]
  | some q, c :: cs =>
    Chars.consFirst c (splitUnquoted separator (if c = q then none else some q) cs)
  | none, c :: cs =>
    if isQuote c then Chars.consFirst c (splitUnquoted separator (some c) cs)
    else if c = separator then [] :: splitUnquoted separator none cs
    else Chars.consFirst c (splitUnquoted separator none cs)

def parts (separator : Char) (line : String) : List String :=
  (splitUnquoted separator none line.toList).map String.ofList

end PocketUnix.Shell
