import PocketUnix.Text.Basic

/-!
# Side by side

Pasting lines of several texts, joining lines by their first fields, and aligning cells in columns.
-/

namespace PocketUnix.Filter

/-- The lines in the same places, with a glue between them; a text that has ended gives empty
lines. -/
def paste (glue : String) (texts : List (List String)) : List String :=
  let height := (texts.map List.length).foldl max 0
  (List.range height).map fun k => glue.intercalate (texts.map fun lines => lines.getD k "")

/-- The first field of a line and what follows it. -/
def keyed (separator : Option String) (line : String) : String × String :=
  let parts := match separator with
    | none => Text.cutWhere? Chars.isBlank line
    | some sep => if sep = "" then Text.cutWhere? Chars.isBlank line else Text.cutAt? sep line
  match parts with
  | none => (line, "")
  | some (key, rest) => (key, Text.trimStart rest)

/-- A row for each pair of lines with one key; parts that are empty are left out. -/
def joinLines (separator : Option String) (left right : List String) : List String :=
  let glue := separator.getD " "
  let others := right.map (keyed separator)
  left.flatMap fun line =>
    let (key, rest) := keyed separator line
    others.filterMap fun (otherKey, other) =>
      if otherKey = key then some (glue.intercalate ([key, rest, other].filter (· != ""))) else none

/-- The widest cell of each column. -/
def columnWidths : List (List String) → List Nat
  | [] => []
  | row :: rows => widen (row.map String.length) (columnWidths rows)
where
  widen : List Nat → List Nat → List Nat
    | [], ws => ws
    | vs, [] => vs
    | v :: vs, w :: ws => max v w :: widen vs ws

/-- Cells padded to the widths of their columns, two blanks apart; the last one is not padded. -/
def alignRow : List Nat → List String → String
  | _, [] => ""
  | _, [cell] => cell
  | widths, cell :: next :: rest =>
    Text.padRight (widths.headD 0) cell ++ "  " ++ alignRow widths.tail (next :: rest)

def align (rows : List (List String)) : List String := rows.map (alignRow (columnWidths rows))

end PocketUnix.Filter
