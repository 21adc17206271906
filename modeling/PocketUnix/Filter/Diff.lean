import PocketUnix.Number.Digits
import PocketUnix.Text.Basic

/-!
# Differences of two lists of lines

An edit script walks both lists, keeps what is equal at the front of both, and otherwise deletes or
inserts a line so that a longest common subsequence stays in reach. Runs of changes between kept
lines are printed as hunks in the normal format.
-/

namespace PocketUnix.Filter

/-- The lengths of the longest common subsequences of `x :: a` with the tails of `b`, from those
of `a`. -/
def commonRow (x : String) : List String → List Nat → List Nat
  | [], _ => [0]
  | y :: b, below =>
    let right := commonRow x b below.tail
    let here := if x = y then below.tail.headD 0 + 1 else max (below.headD 0) (right.headD 0)
    here :: right

/-- A row for each tail of `a`, with a length for each tail of `b`. -/
def commonTable : List String → List String → List (List Nat)
  | [], b => [b.map (fun _ => 0) ++ [0]]
  | x :: a, b =>
    let rows := commonTable a b
    commonRow x b (rows.headD []) :: rows

inductive Edit where
  | keep (line : String)
  | delete (line : String)
  | insert (line : String)
  deriving DecidableEq, Repr

/-- The edits up to the one that uses up the line `x` of the left list; `rest` gives those after
it. The rows belong to the tails that are left. -/
def editsAt (x : String) (rest : List String → List (List Nat) → List Edit) :
    List String → List (List Nat) → List Edit
  | [], rows => .delete x :: rest [] rows.tail
  | y :: b, rows =>
    if x = y then .keep x :: rest b (rows.tail.map List.tail)
    else if (rows.headD []).tail.headD 0 ≤ (rows.tail.headD []).headD 0 then
      .delete x :: rest (y :: b) rows.tail
    else .insert y :: editsAt x rest b (rows.map List.tail)

def edits : List String → List String → List (List Nat) → List Edit
  | [], b, _ => b.map .insert
  | x :: a, b, rows => editsAt x (edits a) b rows

def editScript (a b : List String) : List Edit := edits a b (commonTable a b)

/-- Neighbouring changes with the numbers of lines in front of them. -/
structure Hunk where
  leftBefore : Nat
  rightBefore : Nat
  deleted : List String
  inserted : List String
  deriving DecidableEq, Repr

/-- The hunks of the edits behind so many lines on both sides, of which the first one may have
begun. -/
def hunksFrom (left right : Nat) (begun : Option Hunk) : List Edit → List Hunk
  | [] => begun.toList
  | .keep _ :: es => begun.toList ++ hunksFrom (left + 1) (right + 1) none es
  | .delete line :: es =>
    let hunk := begun.getD ⟨left, right, [], []⟩
    hunksFrom (left + 1) right (some { hunk with deleted := hunk.deleted ++ [line] }) es
  | .insert line :: es =>
    let hunk := begun.getD ⟨left, right, [], []⟩
    hunksFrom left (right + 1) (some { hunk with inserted := hunk.inserted ++ [line] }) es

/-- The numbers of the lines behind the first `before` ones. -/
def rangeText (before count : Nat) : String :=
  if count = 1 then s!"{before + 1}" else s!"{before + 1},{before + count}"

def Hunk.header (h : Hunk) : String :=
  match h.deleted.isEmpty, h.inserted.isEmpty with
  | false, false =>
    rangeText h.leftBefore h.deleted.length ++ "c" ++ rangeText h.rightBefore h.inserted.length
  | false, true => rangeText h.leftBefore h.deleted.length ++ s!"d{h.rightBefore}"
  | true, _ => s!"{h.leftBefore}a" ++ rangeText h.rightBefore h.inserted.length

def Hunk.lines (h : Hunk) : List String :=
  [h.header] ++ h.deleted.map ("< " ++ ·) ++
    (if h.deleted.isEmpty || h.inserted.isEmpty then [] else ["---"]) ++
    h.inserted.map ("> " ++ ·)

def hunks (a b : List String) : List Hunk := hunksFrom 0 0 none (editScript a b)

def diff (a b : List String) : String := Text.joinLines ((hunks a b).flatMap Hunk.lines)

end PocketUnix.Filter
