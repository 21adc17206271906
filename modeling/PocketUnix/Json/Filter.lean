import PocketUnix.Json.Basic
import PocketUnix.Text.Basic

/-!
# Filters

A filter such as `.items[1].name` names a way from a value to a value inside it.
-/

namespace PocketUnix.Json

inductive Step where
  | member (name : String)
  | item (index : Nat)
  deriving DecidableEq, Repr

abbrev Filter := List Step

/-- The bracketed indexes at the start of a text. What stands behind them is passed over. Each
index costs two characters, so that the length of the text is enough fuel. -/
def readIndexes? : Nat → List Char → Option (List Step)
  | fuel + 1, '[' :: rest => do
    let (inner, tail) ← Chars.cutWhere? (· == ']') rest
    let index ← Number.readChars? Number.wordLimit inner
    let steps ← readIndexes? fuel tail
    some (.item index :: steps)
  | _, _ => some []

/-- A name, if there is one, and the indexes behind it. -/
def readSegment? (segment : List Char) : Option (List Step) := do
  let name := segment.takeWhile (· != '[')
  let steps ← readIndexes? segment.length (segment.dropWhile (· != '['))
  some (if name.isEmpty then steps else .member (.ofList name) :: steps)

def Filter.read? (s : String) : Option Filter :=
  match s.toList with
  | '.' :: rest => do
    let segments := (rest.splitOn '.').filter fun segment => !segment.isEmpty
    some (← segments.mapM readSegment?).flatten
  | _ => none

def step (value : Json) : Step → Json
  | .member name => value.member name
  | .item index => value.item index

def select (value : Json) (filter : Filter) : Json := filter.foldl step value

end PocketUnix.Json
