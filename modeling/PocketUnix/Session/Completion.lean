import PocketUnix.Command.Name
import PocketUnix.Machine

/-!
# Completion

What a tab makes of the word in front of the cursor: at the start of a command it is completed to
a command name, elsewhere to a path.
-/

namespace PocketUnix

inductive Completion where
  | unchanged
  | edited (text : String) (cursor : Nat)
  | listing (candidates : List String)
  deriving DecidableEq, Repr

namespace Completion

/-- What stands before the last word, up to the blank, and the word. -/
def lastWord (before : List Char) : List Char × List Char :=
  (Chars.dropEndWhile (!Chars.isBlank ·) before,
    (before.reverse.takeWhile (!Chars.isBlank ·)).reverse)

/-- A command starts the line or follows a bar or a semicolon. -/
def isCommandPlace (lead : List Char) : Bool :=
  match (Chars.trimEnd lead).getLast? with
  | none => true
  | some c => c == '|' || c == ';'

/-- What has been typed of a name, with all names that start so. -/
structure Offer where
  typed : List Char
  candidates : List (List Char)

def commandOffer (word : List Char) : Offer :=
  ⟨word, (Command.names.map String.toList).filter word.isPrefixOf⟩

/-- The directory that a word names and the start of a name in it. -/
def splitPath (m : Machine) (word : List Char) : Path × List Char :=
  match Chars.cutLast? (· == '/') word with
  | none => (m.cwd, word)
  | some ([], name) => ([], name)
  | some (directory, name) => (m.resolve (.ofList directory), name)

/-- Directories are offered with a slash behind them. -/
def entryOffer (n : Node) : List Char :=
  if n.isDirectory then n.name.toList ++ ['/'] else n.name.toList

def pathOffer (m : Machine) (word : List Char) : Offer :=
  let (directory, typed) := splitPath m word
  match m.root.get? directory with
  | some (.directory _ entries) =>
    ⟨typed, ((entries.map (·.2)).filter fun n => typed.isPrefixOf n.name.toList).map entryOffer⟩
  | _ => ⟨typed, []⟩

def commonStart : List Char → List Char → List Char
  | a :: as, b :: bs => if a = b then a :: commonStart as bs else []
  | _, _ => []

def longestCommonStart : List (List Char) → List Char
  | [] => []
  | first :: rest => rest.foldl commonStart first

/-- Puts text between what stands before and after the cursor. -/
def splice (before insert after : List Char) : Completion :=
  if insert.isEmpty then .unchanged
  else .edited (.ofList (before ++ insert ++ after)) (Chars.byteLength (before ++ insert))

def ofOffer (before after : List Char) (offer : Offer) : Completion :=
  match offer.candidates with
  | [] => .unchanged
  | [only] =>
    let rest := only.drop offer.typed.length
    splice before (if rest.getLast? = some '/' then rest else rest ++ [' ']) after
  | several =>
    let common := longestCommonStart several
    if offer.typed.length < common.length then
      splice before (common.drop offer.typed.length) after
    else .listing (several.map String.ofList)

/-- Completes the word that ends at the cursor, a byte offset. -/
def complete (text : String) (cursor : Nat) (m : Machine) : Completion :=
  let (before, after) := Chars.cut cursor text.toList
  let (lead, word) := lastWord before
  ofOffer before after (if isCommandPlace lead then commandOffer word else pathOffer m word)

end Completion

end PocketUnix
