import PocketUnix.Proofs.Text.Pieces

/-!
# Lines that are put together and read again

A text ends its last line with or without a newline. Lines that are put together stand there without
one, so that all of them are read again but for an empty one at the end.
-/

namespace PocketUnix

namespace Chars

theorem mem_of_mem_dropReturn {line : List Char} {c : Char} (h : c ∈ dropReturn line) :
    c ∈ line := by
  unfold dropReturn at h
  split at h
  · exact List.dropLast_subset line h
  · exact h

/-- A line is a piece, perhaps without a carriage return at its end. -/
theorem exists_piece_of_mem_linesOfPieces {pieces : List (List Char)} {line : List Char}
    (h : line ∈ linesOfPieces pieces) : ∃ piece ∈ pieces, ∀ c ∈ line, c ∈ piece := by
  fun_induction linesOfPieces pieces with
  | case1 => cases h
  | case2 last hempty => cases h
  | case3 last hlast =>
    rw [List.mem_singleton] at h
    exact ⟨last, List.mem_cons_self, fun c hc => h ▸ hc⟩
  | case4 piece next rest ih =>
    rcases List.mem_cons.mp h with rfl | h
    · exact ⟨piece, List.mem_cons_self, fun c hc => mem_of_mem_dropReturn hc⟩
    · obtain ⟨p, hp, hline⟩ := ih h
      exact ⟨p, List.mem_cons_of_mem piece hp, hline⟩

/-- Of the pieces only an empty last one is no line. -/
theorem length_linesOfPieces (pieces : List (List Char)) :
    (linesOfPieces pieces).length = pieces.length - if pieces.getLast? = some [] then 1 else 0 := by
  fun_induction linesOfPieces pieces with
  | case1 => rfl
  | case2 last hempty => simp [List.isEmpty_iff.mp hempty]
  | case3 last hlast => simp [mt List.isEmpty_iff.mpr hlast]
  | case4 piece next rest ih =>
    rw [List.length_cons, ih, List.getLast?_cons_cons]
    split <;> simp

/-- Pieces without carriage returns are lines if the last of them is not empty. -/
theorem linesOfPieces_eq_self {pieces : List (List Char)} (hreturn : ∀ piece ∈ pieces, '\r' ∉ piece)
    (hlast : pieces.getLast? ≠ some []) : linesOfPieces pieces = pieces := by
  fun_induction linesOfPieces pieces with
  | case1 => rfl
  | case2 last hempty => simp [List.isEmpty_iff.mp hempty] at hlast
  | case3 last hempty => rfl
  | case4 piece next rest ih =>
    obtain ⟨hpiece, hrest⟩ := List.forall_mem_cons.mp hreturn
    have hdrop : dropReturn piece = piece :=
      if_neg fun h => hpiece (List.mem_of_getLast? h)
    rw [List.getLast?_cons_cons] at hlast
    rw [hdrop, ih hrest hlast]

end Chars

namespace Text

variable {rows : List String}

theorem newline_not_mem_of_mem_lines {s line : String} (h : line ∈ lines s) :
    '\n' ∉ line.toList := by
  obtain ⟨letters, hletters, rfl⟩ := List.mem_map.mp h
  obtain ⟨piece, hpiece, hmem⟩ := Chars.exists_piece_of_mem_linesOfPieces hletters
  rw [String.toList_ofList]
  exact fun hc => Chars.not_mem_of_mem_splitOn hpiece (hmem _ hc)

theorem mem_of_mem_lines {s line : String} {c : Char} (h : line ∈ lines s) (hc : c ∈ line.toList) :
    c ∈ s.toList := by
  obtain ⟨letters, hletters, rfl⟩ := List.mem_map.mp h
  obtain ⟨piece, hpiece, hmem⟩ := Chars.exists_piece_of_mem_linesOfPieces hletters
  rw [String.toList_ofList] at hc
  exact (Chars.of_mem_splitOnP hpiece (hmem c hc)).1

theorem lines_joinLines (h : ∀ row ∈ rows, '\n' ∉ row.toList) (hne : rows ≠ []) :
    lines (joinLines rows) = (Chars.linesOfPieces (rows.map String.toList)).map String.ofList := by
  have hpieces : (splitOn (joinLines rows) '\n').map String.toList = rows.map String.toList :=
    congrArg (List.map String.toList) (splitOn_intercalate h hne)
  have hchars : (joinLines rows).toList.splitOn '\n' = rows.map String.toList := by
    simpa [splitOn] using hpieces
  rw [lines, Chars.lines, hchars]

/-- Lines are read as they are if no carriage return is in them and the last of them is not empty. -/
theorem lines_joinLines_eq_self (h : ∀ row ∈ rows, '\n' ∉ row.toList)
    (hreturn : ∀ row ∈ rows, '\r' ∉ row.toList) (hlast : rows.getLast? ≠ some "") :
    lines (joinLines rows) = rows := by
  rcases eq_or_ne rows [] with rfl | hne
  · rfl
  · have hpieces : Chars.linesOfPieces (rows.map String.toList) = rows.map String.toList :=
      Chars.linesOfPieces_eq_self (List.forall_mem_map.mpr hreturn) (by simpa using hlast)
    rw [lines_joinLines h hne, hpieces, List.map_map]
    simp

/-- The lines that a reader of joined lines misses. -/
def lostLines (rows : List String) : Nat := if rows.getLast? = some "" then 1 else 0

theorem length_lines_joinLines (h : ∀ row ∈ rows, '\n' ∉ row.toList) :
    (lines (joinLines rows)).length = rows.length - lostLines rows := by
  rcases eq_or_ne rows [] with rfl | hne
  · rfl
  · rw [lines_joinLines h hne, List.length_map, Chars.length_linesOfPieces, List.length_map,
      List.getLast?_map, lostLines]
    simp

end Text

end PocketUnix
