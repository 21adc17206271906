import Mathlib.Data.List.Forall2
import PocketUnix.Filter.Columns
import PocketUnix.Proofs.Plan

/-!
# Cells below each other

A row holds its cells at the places where their columns start, and blanks between them. Each column
starts two blanks behind the widest cell of the one in front of it, however many cells a row has.
The table of widths is also filled and read once more with every access checked.
-/

namespace PocketUnix.Filter

variable {rows : List (List String)} {row cells : List String} {cell line : String}
  {width : Nat → Nat} {widths table : List Nat} {k length : Nat}

/-- The length of the widest cell of a column. -/
def widest (rows : List (List String)) (k : Nat) : Nat :=
  ((rows.filterMap (·[k]?)).map String.length).foldr max 0

/-- The place at which a column starts: behind all columns in front of it, with two blanks after
each of them. -/
def columnStart (width : Nat → Nat) : Nat → Nat
  | 0 => 0
  | k + 1 => columnStart width k + (width k + 2)

/-- A line that holds cells from given places on. -/
structure Lays (start : Nat → Nat) (cells : List String) (line : String) : Prop where
  cell : ∀ k cell, cells[k]? = some cell → cell.toList <+: line.toList.drop (start k)
  /-- Behind a cell there are blanks, two at least, up to the next one. -/
  gap : ∀ k cell, cells[k]? = some cell → k + 1 < cells.length →
    ∃ blanks, 2 ≤ blanks ∧ start (k + 1) = start k + cell.length + blanks ∧
      List.replicate blanks ' ' <+: line.toList.drop (start k + cell.length)
  /-- There is nothing behind the last cell. -/
  ends : ∀ cell, cells.getLast? = some cell →
    line.length = start (cells.length - 1) + cell.length
  empty : cells = [] → line = ""

theorem columnStart_succ (width : Nat → Nat) (k : Nat) :
    columnStart width (k + 1) = width 0 + 2 + columnStart (fun j => width (j + 1)) k := by
  induction k with
  | zero => simp [columnStart]
  | succ k ih => rw [columnStart, ih, columnStart, Nat.add_assoc]

theorem widest_cons (row : List String) (rows : List (List String)) (k : Nat) :
    widest (row :: rows) k = max ((row.map String.length).getD k 0) (widest rows k) := by
  rw [List.getD_eq_getElem?_getD, List.getElem?_map]
  cases hk : row[k]? <;> simp [widest, hk]

/-- No cell is wider than the widest one of its column. -/
theorem length_le_widest (hrow : row ∈ rows) (hk : row[k]? = some cell) :
    cell.length ≤ widest rows k := by
  induction rows with
  | nil => cases hrow
  | cons first rows ih =>
    rw [widest_cons]
    rcases List.mem_cons.mp hrow with rfl | hrow
    · rw [List.getD_eq_getElem?_getD, List.getElem?_map, hk]
      exact Nat.le_max_left _ _
    · exact Nat.le_trans (ih hrow) (Nat.le_max_right _ _)

/-- Each place of the table keeps the larger number, and a place that is missing counts as zero. -/
theorem getD_widen (vs ws : List Nat) (k : Nat) :
    (columnWidths.widen vs ws).getD k 0 = max (vs.getD k 0) (ws.getD k 0) := by
  fun_induction columnWidths.widen vs ws generalizing k with
  | case1 ws => simp
  | case2 vs => simp
  | case3 v vs w ws ih =>
    cases k with
    | zero => rfl
    | succ k => simpa using ih k

/-- The table grows to the longer of the two. -/
theorem length_widen (vs ws : List Nat) :
    (columnWidths.widen vs ws).length = max vs.length ws.length := by
  fun_induction columnWidths.widen vs ws with
  | case1 ws => simp
  | case2 vs => simp
  | case3 v vs w ws ih =>
    rw [List.length_cons, ih, List.length_cons, List.length_cons]
    omega

theorem getD_columnWidths (rows : List (List String)) (k : Nat) :
    (columnWidths rows).getD k 0 = widest rows k := by
  induction rows with
  | nil => simp [columnWidths, widest]
  | cons row rows ih => rw [columnWidths, getD_widen, ih, widest_cons]

theorem lays_nil (start : Nat → Nat) : Lays start [] "" where
  cell _ _ h := by cases h
  gap _ _ h := by cases h
  ends _ h := by cases h
  empty _ := rfl

/-- A cell that is alone starts its line. -/
theorem lays_singleton (width : Nat → Nat) (cell : String) :
    Lays (columnStart width) [cell] cell where
  cell k only h := by
    obtain ⟨rfl, rfl⟩ : k = 0 ∧ cell = only := by simpa [List.getElem?_singleton] using h
    exact List.prefix_rfl
  gap k _ _ hk := by simp at hk
  ends only h := by
    obtain rfl : cell = only := Option.some.inj h
    simp [columnStart]
  empty h := by cases h

theorem toList_padRight (width : Nat) (cell line : String) :
    (Text.padRight width cell ++ "  " ++ line).toList =
      cell.toList ++ (List.replicate (width - cell.length + 2) ' ' ++ line.toList) := by
  simp [Text.padRight, Text.replicate, List.replicate_add]

/-- A cell in front of others moves them on to where their columns start now. -/
theorem Lays.cons {next : String} {rest : List String}
    (h : Lays (columnStart fun j => width (j + 1)) (next :: rest) line)
    (hcell : cell.length ≤ width 0) :
    Lays (columnStart width) (cell :: next :: rest)
      (Text.padRight (width 0) cell ++ "  " ++ line) := by
  have htext := toList_padRight (width 0) cell line
  have hlength : cell.toList.length = cell.length := String.length_toList
  have hfront : (cell.toList ++ List.replicate (width 0 - cell.length + 2) ' ').length =
      width 0 + 2 := by
    rw [List.length_append, List.length_replicate, hlength]
    omega
  have hdrop : ∀ n, (Text.padRight (width 0) cell ++ "  " ++ line).toList.drop (width 0 + 2 + n) =
      line.toList.drop n := by
    intro n
    rw [htext, ← List.append_assoc, ← hfront, List.drop_length_add_append]
  constructor
  · intro k only hk
    cases k with
    | zero =>
      obtain rfl : cell = only := Option.some.inj hk
      rw [htext]
      exact List.prefix_append _ _
    | succ k =>
      rw [columnStart_succ, hdrop]
      exact h.cell k only hk
  · intro k only hk hlast
    cases k with
    | zero =>
      obtain rfl : cell = only := Option.some.inj hk
      refine ⟨width 0 - cell.length + 2, Nat.le_add_left _ _, ?_, ?_⟩
      · simp only [columnStart]
        omega
      · rw [htext, columnStart, Nat.zero_add, ← hlength, List.drop_left]
        exact List.prefix_append _ _
    | succ k =>
      obtain ⟨blanks, htwo, hstart, hblanks⟩ := h.gap k only hk (by simpa using hlast)
      refine ⟨blanks, htwo, ?_, ?_⟩
      · rw [columnStart_succ width (k + 1), columnStart_succ width k, hstart]
        omega
      · rw [columnStart_succ, Nat.add_assoc, hdrop]
        exact hblanks
  · intro last hlast
    rw [List.getLast?_cons_cons] at hlast
    have hsize : (Text.padRight (width 0) cell ++ "  " ++ line).length =
        width 0 + 2 + line.length := by
      rw [← String.length_toList, htext, ← List.append_assoc, List.length_append, hfront,
        String.length_toList]
    have hstart := columnStart_succ width rest.length
    have hline := h.ends last hlast
    simp only [List.length_cons, Nat.add_sub_cancel] at hline ⊢
    omega
  · exact fun hnil => by cases hnil

/-- Each cell but the last is filled up to where the next column starts. -/
theorem lays_alignRow (hwidths : ∀ k, widths.getD k 0 = width k)
    (hcells : ∀ k cell, cells[k]? = some cell → cell.length ≤ width k) :
    Lays (columnStart width) cells (alignRow widths cells) := by
  induction cells generalizing widths width with
  | nil => exact lays_nil _
  | cons cell rest ih =>
    cases rest with
    | nil => exact lays_singleton width cell
    | cons next rest =>
      have hfirst : widths.headD 0 = width 0 := by
        rw [← hwidths 0]
        cases widths <;> rfl
      have hlater : ∀ k, widths.tail.getD k 0 = width (k + 1) := by
        intro k
        rw [← hwidths (k + 1)]
        cases widths <;> rfl
      rw [alignRow, hfirst]
      exact (ih hlater fun k => hcells (k + 1)).cons (hcells 0 cell rfl)

/-- There is nothing in a row but its cells and blanks. -/
theorem mem_alignRow {c : Char} (h : c ∈ (alignRow widths cells).toList) :
    c = ' ' ∨ ∃ cell ∈ cells, c ∈ cell.toList := by
  induction cells generalizing widths with
  | nil => cases h
  | cons cell rest ih =>
    cases rest with
    | nil => exact .inr ⟨cell, List.mem_cons_self, h⟩
    | cons next rest =>
      rw [alignRow, toList_padRight, List.mem_append, List.mem_append] at h
      rcases h with h | h | h
      · exact .inr ⟨cell, List.mem_cons_self, h⟩
      · exact .inl (List.eq_of_mem_replicate h)
      · refine (ih h).imp_right ?_
        rintro ⟨later, hlater, hc⟩
        exact ⟨later, List.mem_cons_of_mem cell hlater, hc⟩

/-- Each row is laid out in the columns of all rows. -/
theorem lays_align (rows : List (List String)) :
    List.Forall₂ (Lays (columnStart (widest rows))) rows (align rows) := by
  rw [align, List.forall₂_map_right_iff, List.forall₂_same]
  exact fun row hrow => lays_alignRow (getD_columnWidths rows) fun k cell =>
    length_le_widest hrow

namespace Checked

/-- Enters the cells of a row into the table of widths, from a place on. -/
def enter (widths : List Nat) (k : Nat) : List String → Option (List Nat)
  | [] => some widths
  | cell :: rest => do
    let width ← widths[k]?
    enter (widths.set k (max width cell.length)) (k + 1) rest

/-- The table has a place for each cell of the longest row, and holds zeros at first. -/
def columnWidths (rows : List (List String)) : Option (List Nat) :=
  rows.foldlM (fun widths row => enter widths 0 row)
    (List.replicate ((rows.map List.length).foldl max 0) 0)

/-- The cells of a row of a given length, from a place on. -/
def alignRow (widths : List Nat) (length k : Nat) : List String → Option String
  | [] => some ""
  | cell :: rest =>
    if k + 1 = length then do
      let later ← alignRow widths length (k + 1) rest
      some (cell ++ later)
    else do
      let width ← widths[k]?
      let later ← alignRow widths length (k + 1) rest
      some (Text.padRight width cell ++ "  " ++ later)

def align (rows : List (List String)) : Option (List String) := do
  let widths ← columnWidths rows
  rows.mapM fun row => alignRow widths row.length 0 row

/-- Entering the cells of a row widens its columns. -/
theorem enter_eq (front : List Nat) (h : cells.length ≤ widths.length) :
    enter (front ++ widths) front.length cells =
      some (front ++ Filter.columnWidths.widen (cells.map String.length) widths) := by
  induction cells generalizing front widths with
  | nil => simp [enter, Filter.columnWidths.widen]
  | cons cell rest ih =>
    cases widths with
    | nil => simp at h
    | cons width widths =>
      have hset : (front ++ width :: widths).set front.length (max width cell.length) =
          front ++ [max width cell.length] ++ widths := by
        rw [List.set_append_right _ _ (Nat.le_refl _), Nat.sub_self]
        simp
      have hlater := ih (front ++ [max width cell.length]) (Nat.le_of_succ_le_succ h)
      rw [List.length_append, List.length_singleton] at hlater
      rw [enter, List.getElem?_append_right (Nat.le_refl _), Nat.sub_self, List.getElem?_cons_zero,
        Option.bind_eq_bind, Option.bind_some, hset, hlater, List.map_cons,
        Filter.columnWidths.widen, List.append_assoc, Nat.max_comm]
      rfl

/-- No place is missing if the table is as long as each row: it holds the widest cells in the end. -/
theorem foldlM_enter (h : ∀ row ∈ rows, row.length ≤ widths.length) :
    ∃ table, rows.foldlM (fun widths row => enter widths 0 row) widths = some table ∧
      table.length = widths.length ∧
      ∀ k, table.getD k 0 = max (widths.getD k 0) (widest rows k) := by
  induction rows generalizing widths with
  | nil => exact ⟨widths, rfl, rfl, fun k => by simp [widest]⟩
  | cons row rows ih =>
    obtain ⟨hrow, hrows⟩ := List.forall_mem_cons.mp h
    have hlength : (Filter.columnWidths.widen (row.map String.length) widths).length =
        widths.length := by
      rw [length_widen, List.length_map]
      exact Nat.max_eq_right hrow
    rw [← hlength] at hrows
    obtain ⟨table, htable, hsame, hwidest⟩ := ih hrows
    have henter : enter widths 0 row =
        some (Filter.columnWidths.widen (row.map String.length) widths) := enter_eq [] hrow
    refine ⟨table, ?_, hsame.trans hlength, fun k => ?_⟩
    · rw [List.foldlM_cons, henter]
      exact htable
    · rw [hwidest, getD_widen, widest_cons, Nat.max_left_comm, Nat.max_assoc]

/-- The table is filled without any access out of range, and has a place for each cell of each row.
-/
theorem columnWidths_eq (rows : List (List String)) :
    ∃ table, columnWidths rows = some table ∧ (∀ row ∈ rows, row.length ≤ table.length) ∧
      ∀ k, table.getD k 0 = widest rows k := by
  have hlongest : ∀ row ∈ rows, row.length ≤
      (List.replicate ((rows.map List.length).foldl max 0) 0).length := by
    intro row hrow
    rw [List.length_replicate, List.foldl_max, Nat.zero_max]
    exact List.le_max?_getD_of_mem (List.mem_map_of_mem hrow)
  obtain ⟨table, htable, hlength, hwidest⟩ := foldlM_enter hlongest
  refine ⟨table, htable, fun row hrow => hlength ▸ hlongest row hrow, fun k => ?_⟩
  have hzero : (List.replicate ((rows.map List.length).foldl max 0) 0).getD k 0 = 0 := by
    rw [List.getD_eq_getElem?_getD, List.getElem?_replicate]
    split <;> rfl
  rw [hwidest, hzero, Nat.zero_max]

/-- A row that is no longer than the table is laid out by it. -/
theorem alignRow_eq (hlength : k + cells.length = length) (htable : length ≤ table.length)
    (hwidths : ∀ j, widths.getD j 0 = table.getD (k + j) 0) :
    alignRow table length k cells = some (Filter.alignRow widths cells) := by
  induction cells generalizing k widths with
  | nil => rfl
  | cons cell rest ih =>
    cases rest with
    | nil =>
      rw [List.length_singleton] at hlength
      rw [alignRow, if_pos hlength]
      exact congrArg some String.append_empty
    | cons next rest =>
      rw [List.length_cons, List.length_cons] at hlength
      have hlater : ∀ j, widths.tail.getD j 0 = table.getD (k + 1 + j) 0 := by
        intro j
        rw [Nat.add_assoc, Nat.add_comm 1 j, ← hwidths (j + 1)]
        cases widths <;> rfl
      have hwidth : table[k]? = some (widths.headD 0) := by
        have hk : k < table.length := by omega
        have hfirst : widths.headD 0 = widths.getD 0 0 := by cases widths <;> rfl
        rw [hfirst, hwidths 0, Nat.add_zero, List.getD_eq_getElem?_getD,
          List.getElem?_eq_getElem hk]
        rfl
      have hrest := ih (by rw [List.length_cons]; omega) hlater
      rw [alignRow, if_neg (by omega), hwidth, hrest, Filter.alignRow]
      rfl

/-- No access to the table of widths is out of range. -/
theorem align_eq (rows : List (List String)) : align rows = some (Filter.align rows) := by
  obtain ⟨table, htable, hlongest, hwidest⟩ := columnWidths_eq rows
  have hrow : ∀ row ∈ rows, alignRow table row.length 0 row =
      some (Filter.alignRow (Filter.columnWidths rows) row) := by
    intro row hrow
    refine alignRow_eq (Nat.zero_add _) (hlongest row hrow) fun j => ?_
    rw [getD_columnWidths, Nat.zero_add, hwidest]
  rw [align, htable]
  exact Plan.mapM_eq_some_map hrow

end Checked

end PocketUnix.Filter
