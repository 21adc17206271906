import PocketUnix.Filter.Columns
import PocketUnix.Filter.Select
import PocketUnix.Proofs.Numbers
import PocketUnix.Proofs.Text.Ends
import PocketUnix.Proofs.Text.Lines

/-!
# Lines side by side, and their fields

Lines are put side by side with a letter between any two. Where the letter is in none of them, they
are the fields of what has been put together, and the field with a number comes from the text with
this number.
-/

namespace PocketUnix.Filter

variable {d : Char} {k height : Nat} {row : String} {lines pieces : List String}
  {columns : List (List String)}

namespace Positions

variable {α : Type}

theorem has_single (j : Nat) : has [⟨k, k⟩] j = decide (j = k) := by
  simp only [has, List.any_cons, List.any_nil, Bool.or_false]
  rw [← Bool.decide_and, decide_eq_decide]
  omega

/-- Wherever counting starts, one item at most has a given number. -/
theorem filterMap_zipIdx_single (items : List α) (k start : Nat) :
    ((items.zipIdx start).filterMap fun (item, j) => if j = start + k then some item else none) =
      items[k]?.toList := by
  induction items generalizing k start with
  | nil => simp
  | cons item items ih =>
    rw [List.zipIdx_cons]
    cases k with
    | zero =>
      have hbehind : ((items.zipIdx (start + 1)).filterMap fun (item, j) =>
          if j = start + 0 then some item else none) = [] := by
        rw [List.filterMap_eq_nil_iff]
        intro p hp
        have hle := List.le_snd_of_mem_zipIdx hp
        exact if_neg (by omega)
      rw [List.filterMap_cons, hbehind]
      simp
    | succ k =>
      have hlater := ih k (start + 1)
      rw [Nat.add_right_comm, Nat.add_assoc start] at hlater
      rw [List.filterMap_cons, hlater]
      simp

/-- A single position chooses the item that stands there, if there is one. -/
theorem choose_single (items : List α) (k : Nat) :
    choose [⟨k + 1, k + 1⟩] items = items[k]?.toList := by
  rw [← filterMap_zipIdx_single items k 1, choose, Nat.add_comm 1 k]
  simp only [has_single, decide_eq_true_eq]

/-- A number is the list of this position alone. -/
theorem read?_numeral {list : String} (h : Number.Numeral Number.wordLimit list.toList (k + 1)) :
    read? list = some [⟨k + 1, k + 1⟩] := by
  have hcomma : ',' ∉ list.toList := h.not_mem rfl (by decide)
  have hdash : '-' ∉ list.toList := h.not_mem rfl (by decide)
  have hsplit : list.toList.splitOn ',' = [list.toList] :=
    List.splitOnP_eq_singleton (Chars.beq_of_not_mem hcomma)
  have hcut := Chars.cutWhere?_eq_none (Chars.beq_of_not_mem hdash)
  have hnumber := Number.readChars?_eq_some_iff.mpr h
  rw [read?, hsplit]
  simp [span?, hcut, hnumber]

end Positions

theorem hasChar_intercalate (htwo : 2 ≤ pieces.length) :
    Text.hasChar ((String.singleton d).intercalate pieces) d = true := by
  match pieces, htwo with
  | first :: next :: rest, _ =>
    simp [Text.hasChar, String.toList_intercalate]

/-- Of pieces with a letter between any two, the field with a number is the piece with this
number. -/
theorem cutFields_intercalate (hfree : ∀ piece ∈ pieces, d ∉ piece.toList)
    (htwo : 2 ≤ pieces.length) {piece : String} (hk : pieces[k]? = some piece) :
    cutFields [⟨k + 1, k + 1⟩] d ((String.singleton d).intercalate pieces) = piece := by
  have hne : pieces ≠ [] := by
    rintro rfl
    cases hk
  have hhas := hasChar_intercalate (d := d) htwo
  rw [cutFields, hhas, if_neg (by decide), Text.splitOn_intercalate hfree hne,
    Positions.choose_single, hk]
  simp

theorem mem_paste {glue : String} (h : row ∈ paste glue columns) :
    ∃ i, row = glue.intercalate (columns.map fun lines => lines.getD i "") := by
  obtain ⟨i, -, rfl⟩ := List.mem_map.mp h
  exact ⟨i, rfl⟩

theorem not_mem_of_mem_getD {c : Char} (h : ∀ line ∈ lines, c ∉ line.toList) (i : Nat) :
    c ∉ (lines.getD i "").toList := by
  rw [List.getD_eq_getElem?_getD]
  cases hi : lines[i]? with
  | none => simp
  | some line => exact h line (List.mem_of_getElem? hi)

/-- A letter that is neither in the lines nor between them is not in a row. -/
theorem not_mem_of_mem_paste {c : Char} (hc : c ≠ d)
    (h : ∀ lines ∈ columns, ∀ line ∈ lines, c ∉ line.toList)
    (hrow : row ∈ paste (.singleton d) columns) : c ∉ row.toList := by
  obtain ⟨i, rfl⟩ := mem_paste hrow
  rw [String.toList_intercalate]
  intro hmem
  obtain hglue | ⟨part, hpart, hmem⟩ := Chars.mem_of_mem_intercalate hmem
  · simp [hc] at hglue
  · obtain ⟨piece, hpiece, rfl⟩ := List.mem_map.mp hpart
    obtain ⟨lines, hlines, rfl⟩ := List.mem_map.mp hpiece
    exact not_mem_of_mem_getD (h lines hlines) i hmem

/-- A row of two columns holds the letter between them. -/
theorem ne_empty_of_mem_paste (htwo : 2 ≤ columns.length)
    (hrow : row ∈ paste (.singleton d) columns) : row ≠ "" := by
  obtain ⟨i, rfl⟩ := mem_paste hrow
  intro hempty
  have hpieces : 2 ≤ (columns.map fun lines => lines.getD i "").length := by rwa [List.length_map]
  have hhas := hasChar_intercalate (d := d) hpieces
  rw [hempty] at hhas
  cases hhas

/-- Rows of two lines or more are all read again: none of them is empty. -/
theorem lines_paste (htwo : 2 ≤ columns.length) (hnewline : d ≠ '\n') (hreturn : d ≠ '\r')
    (hlines : ∀ lines ∈ columns, ∀ line ∈ lines, '\n' ∉ line.toList)
    (hreturns : ∀ lines ∈ columns, ∀ line ∈ lines, '\r' ∉ line.toList) :
    Text.lines (Text.joinLines (paste (.singleton d) columns)) = paste (.singleton d) columns :=
  Text.lines_joinLines_eq_self (fun _ => not_mem_of_mem_paste hnewline.symm hlines)
    (fun _ => not_mem_of_mem_paste hreturn.symm hreturns)
    fun hlast => ne_empty_of_mem_paste htwo (List.mem_of_getLast? hlast) rfl

/-- Up to a height, a text that has ended gives empty lines. -/
theorem map_getD_range (h : lines.length ≤ height) :
    ((List.range height).map fun i => lines.getD i "") =
      lines ++ List.replicate (height - lines.length) "" := by
  refine List.ext_getElem? fun i => ?_
  rw [List.getElem?_map, List.getElem?_append]
  rcases Nat.lt_or_ge i lines.length with hline | hended
  · rw [if_pos hline, List.getElem?_range (Nat.lt_of_lt_of_le hline h)]
    simp [List.getElem?_eq_getElem hline]
  · rw [if_neg (Nat.not_lt.mpr hended), List.getElem?_replicate]
    rcases Nat.lt_or_ge i height with hrow | hbelow
    · rw [List.getElem?_range hrow, if_pos (by omega)]
      simp [List.getElem?_eq_none hended]
    · rw [List.getElem?_eq_none (by simpa using hbelow), if_neg (by omega)]
      rfl

/-- The fields with one number in all rows are the lines of one text, with empty lines behind them
if another text is longer. -/
theorem map_cutFields_paste (hfree : ∀ lines ∈ columns, ∀ line ∈ lines, d ∉ line.toList)
    (htwo : 2 ≤ columns.length) (hheight : (columns.map List.length).max? = some height)
    (hk : columns[k]? = some lines) :
    (paste (.singleton d) columns).map (cutFields [⟨k + 1, k + 1⟩] d) =
      lines ++ List.replicate (height - lines.length) "" := by
  have hrows : (columns.map List.length).foldl max 0 = height := by
    simp [List.foldl_max, hheight]
  have hle : lines.length ≤ height :=
    (List.max?_eq_some_iff.mp hheight).2 _ (List.mem_map_of_mem (List.mem_of_getElem? hk))
  rw [paste, hrows, List.map_map, ← map_getD_range hle]
  refine List.map_congr_left fun i _ => ?_
  refine cutFields_intercalate (fun piece hpiece => ?_) (by rwa [List.length_map]) (by simp [hk])
  obtain ⟨lines, hlines, rfl⟩ := List.mem_map.mp hpiece
  exact not_mem_of_mem_getD (hfree lines hlines) i

end PocketUnix.Filter
