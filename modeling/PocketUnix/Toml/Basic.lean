import PocketUnix.Table

/-!
# TOML documents

A document is a table of items. Of floating-point numbers, moments and arrays it is only kept that
they are there. A table remembers what made it, since that decides what may be added to it.
-/

namespace PocketUnix.Toml

inductive Origin where
  /-- A header of its own. -/
  | header
  /-- The way to another header. -/
  | passing
  /-- The way of a dotted key. -/
  | dotted
  /-- Braces within a value. -/
  | inline
  deriving DecidableEq, Repr

inductive Item where
  | string (s : String)
  | integer (n : Int)
  | boolean (b : Bool)
  | other
  | table (origin : Origin) (entries : List (String × Item))
  | tables (all : List (List (String × Item)))

abbrev Entries := Table Item

namespace Entries

/-- Adds a value under a dotted key. The table that takes it must have been made by dotted keys;
the way there may also lead through the tables on the way to a header and through the last element
of an array of tables. -/
def addPair? (entries : Entries) (value : Item) : List String → Option Entries
  | [] => none
  | [key] => if Table.contains entries key then none else some (Table.insert key value entries)
  | key :: next :: rest =>
    match Table.get? key entries with
    | none =>
      (addPair? [] value (next :: rest)).map fun inner =>
        Table.insert key (.table .dotted inner) entries
    | some (.table .dotted inner) =>
      (addPair? inner value (next :: rest)).map fun inner =>
        Table.insert key (.table .dotted inner) entries
    | some (.table .passing inner) =>
      if rest.isEmpty then none
      else
        (addPair? inner value (next :: rest)).map fun inner =>
          Table.insert key (.table .passing inner) entries
    | some (.tables all) =>
      if rest.isEmpty then none
      else
        (addPair? (all.getLast?.getD []) value (next :: rest)).map fun last =>
          Table.insert key (.tables (all.dropLast ++ [last])) entries
    | some _ => none

/-- Changes the table that a header stands for; of several tables, the last one. -/
def atHeader? (change : Entries → Option Entries) (entries : Entries) :
    List String → Option Entries
  | [] => change entries
  | key :: rest =>
    match Table.get? key entries with
    | some (.table origin inner) =>
      (atHeader? change inner rest).map fun inner => Table.insert key (.table origin inner) entries
    | some (.tables all) =>
      (atHeader? change (all.getLast?.getD []) rest).map fun last =>
        Table.insert key (.tables (all.dropLast ++ [last])) entries
    | _ => none

/-- Makes the table of a header, by changing the entry at the end of its way. -/
def openHeader? (last : Option Item → Option Item) (entries : Entries) :
    List String → Option Entries
  | [] => none
  | [key] => (last (Table.get? key entries)).map fun item => Table.insert key item entries
  | key :: next :: rest =>
    match Table.get? key entries with
    | none =>
      (openHeader? last [] (next :: rest)).map fun inner =>
        Table.insert key (.table .passing inner) entries
    | some (.table .inline _) => none
    | some (.table origin inner) =>
      (openHeader? last inner (next :: rest)).map fun inner =>
        Table.insert key (.table origin inner) entries
    | some (.tables all) =>
      (openHeader? last (all.getLast?.getD []) (next :: rest)).map fun inner =>
        Table.insert key (.tables (all.dropLast ++ [inner])) entries
    | some _ => none

end Entries

/-- A table has one header, which may follow those of the tables inside it. -/
def startTable : Option Item → Option Item
  | none => some (.table .header [])
  | some (.table .passing entries) => some (.table .header entries)
  | some _ => none

def startElement : Option Item → Option Item
  | none => some (.tables [[]])
  | some (.tables all) => some (.tables (all ++ [[]]))
  | some _ => none

inductive Statement where
  | pair (keys : List String) (value : Item)
  | header (keys : List String)
  | element (keys : List String)

/-- The entries of a document whose statements stand under the headers before them. -/
def build? (entries : Entries) (place : List String) : List Statement → Option Entries
  | [] => some entries
  | .pair keys value :: rest =>
    match entries.atHeader? (·.addPair? value keys) place with
    | none => none
    | some entries => build? entries place rest
  | .header keys :: rest =>
    match entries.openHeader? startTable keys with
    | none => none
    | some entries => build? entries keys rest
  | .element keys :: rest =>
    match entries.openHeader? startElement keys with
    | none => none
    | some entries => build? entries keys rest

end PocketUnix.Toml
