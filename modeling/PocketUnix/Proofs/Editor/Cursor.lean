import PocketUnix.Proofs.Editor.FlatText
import PocketUnix.Session.Editor

/-!
# The buffer around its cursor

The lines of an editor, taken apart at its cursor, are the two halves of a flat text. Seen so, each
way to change the buffer or to move the cursor by one place is an edit of the flat text.
-/

namespace PocketUnix

/-- The lines above the cursor, its line before and behind it, and the lines below. What stands
before the cursor is given back to front. -/
structure View where
  above : List (List Char)
  left : List Char
  right : List Char
  below : List (List Char)

namespace View

def lines (v : View) : List (List Char) :=
  v.above.reverse ++ (v.left.reverse ++ v.right) :: v.below

/-- The lines up to the cursor, and those below it. -/
theorem lines_eq_append (v : View) :
    v.lines = (v.above.reverse ++ [v.left.reverse ++ v.right]) ++ v.below := by
  rw [lines, List.append_assoc, List.singleton_append]

/-- The text before the cursor, back to front. -/
def behind (v : View) : List Char :=
  v.left ++ v.above.flatMap fun line => '\n' :: line.reverse

/-- The text behind the cursor. -/
def ahead (v : View) : List Char := v.right ++ v.below.flatMap fun line => '\n' :: line

/-- No line holds a newline. -/
structure Plain (v : View) : Prop where
  above : ∀ line ∈ v.above, '\n' ∉ line
  left : '\n' ∉ v.left
  right : '\n' ∉ v.right
  below : ∀ line ∈ v.below, '\n' ∉ line

/-- The line of the cursor holds no newline just if its two halves hold none. -/
theorem plain_iff {v : View} : v.Plain ↔ ∀ line ∈ v.lines, '\n' ∉ line := by
  constructor
  · intro h line hline
    simp only [lines, List.mem_append, List.mem_reverse, List.mem_cons] at hline
    rcases hline with hline | rfl | hline
    · exact h.above line hline
    · simp [h.left, h.right]
    · exact h.below line hline
  · intro h
    have hcurrent : '\n' ∉ v.left.reverse ++ v.right := h _ (by simp [lines])
    simp only [List.mem_append, List.mem_reverse, not_or] at hcurrent
    exact ⟨fun line hline => h line (by simp [lines, hline]), hcurrent.1, hcurrent.2,
      fun line hline => h line (by simp [lines, hline])⟩

theorem atBreak_above (above : List (List Char)) :
    Flat.AtBreak (above.flatMap fun line => '\n' :: line.reverse) := by
  cases above with
  | nil => exact .inl rfl
  | cons line above => exact .inr ⟨_, rfl⟩

theorem atBreak_below (below : List (List Char)) :
    Flat.AtBreak (below.flatMap fun line => '\n' :: line) := by
  cases below with
  | nil => exact .inl rfl
  | cons line below => exact .inr ⟨_, rfl⟩

theorem intercalate_cons (line : List Char) (below : List (List Char)) :
    ['\n'].intercalate (line :: below) = line ++ below.flatMap fun line => '\n' :: line := by
  induction below generalizing line with
  | nil => simp
  | cons next below ih =>
    rw [List.intercalate_cons_cons, ih, List.flatMap_cons]
    simp

/-- With newlines between them, the lines above end in newlines, also when they are read back to
front. -/
theorem intercalate_reverse (above : List (List Char)) (line : List Char)
    (below : List (List Char)) :
    ['\n'].intercalate (above.reverse ++ line :: below) =
      (above.flatMap fun line => '\n' :: line.reverse).reverse ++
        ['\n'].intercalate (line :: below) := by
  induction above generalizing line below with
  | nil => rfl
  | cons previous above ih =>
    have hlines : (previous :: above).reverse ++ line :: below =
        above.reverse ++ previous :: line :: below := by
      simp
    rw [hlines, ih, List.intercalate_cons_cons, List.flatMap_cons]
    simp

/-- The lines with newlines between them are the text before and behind the cursor. -/
theorem intercalate_lines (v : View) :
    ['\n'].intercalate v.lines = v.behind.reverse ++ v.ahead := by
  rw [lines, intercalate_reverse, intercalate_cons]
  simp [behind, ahead]

end View

namespace Editor

variable {e e' : Editor} {v : View}

/-- The column of the cursor and the length plus one of every earlier line. -/
def offset (e : Editor) : Nat :=
  (e.lines.take e.line).foldr (fun line n => line.length + 1 + n) e.column

def flat (e : Editor) : Flat := ⟨e.text.toList, e.offset⟩

/-- The editor holds the lines of the view and has its cursor there. -/
structure Shows (e : Editor) (v : View) : Prop where
  lines : e.lines = v.lines
  line : e.line = v.above.length
  column : e.column = v.left.length

/-- The two halves of the flat text of an editor are read off any view of it. -/
theorem Shows.flat (h : e.Shows v) : e.flat = .between v.behind v.ahead := by
  have htext : e.text.toList = v.behind.reverse ++ v.ahead := by
    rw [text, String.toList_ofList, content, h.lines, View.intercalate_lines]
  have htake : e.lines.take e.line = v.above.reverse := by
    rw [h.lines, View.lines, h.line]
    exact List.take_left' List.length_reverse
  have hlength (above : List (List Char)) (n : Nat) :
      above.reverse.foldr (fun line n => line.length + 1 + n) n =
        n + (above.flatMap fun line => '\n' :: line.reverse).length := by
    induction above generalizing n with
    | nil => rfl
    | cons line above ih =>
      rw [List.reverse_cons, List.foldr_append, ih]
      simp
      omega
  have hoffset : e.offset = v.behind.length := by
    rw [offset, htake, hlength, h.column, View.behind, List.length_append]
  rw [Editor.flat, htext, hoffset, Flat.between]

/-- The cursor is at a place of the buffer, whose lines hold no newlines. -/
structure Placed (e : Editor) : Prop where
  line : e.line < e.lines.length
  column : e.column ≤ e.lineLength
  plain : ∀ line ∈ e.lines, '\n' ∉ line

theorem Shows.currentLine (h : e.Shows v) : e.currentLine = v.left.reverse ++ v.right := by
  simp [Editor.currentLine, h.lines, h.line, View.lines]

theorem Shows.lineLength (h : e.Shows v) : e.lineLength = v.left.length + v.right.length := by
  simp [Editor.lineLength, h.currentLine]

/-- Whatever can be seen so is at a place of its buffer. -/
theorem Shows.placed (h : e.Shows v) (hplain : v.Plain) : e.Placed := by
  refine ⟨?_, ?_, ?_⟩
  · rw [h.lines, h.line, View.lines]
    simp
  · rw [h.column, h.lineLength]
    omega
  · rw [h.lines]
    exact View.plain_iff.mp hplain

/-- At a place of the buffer the lines can be taken apart. -/
theorem Placed.exists_shows (h : e.Placed) : ∃ v, e.Shows v ∧ v.Plain := by
  let v : View := ⟨(e.lines.take e.line).reverse, (e.currentLine.take e.column).reverse,
    e.currentLine.drop e.column, e.lines.drop (e.line + 1)⟩
  have hcurrent : e.lines[e.line]? = some e.currentLine := by
    simp [Editor.currentLine, h.line]
  have hlines : e.lines = v.lines := by
    have hline := List.getElem?_eq_some_iff.mp hcurrent
    obtain ⟨hlt, hget⟩ := hline
    simp only [v, View.lines, List.reverse_reverse, List.take_append_drop]
    rw [← hget, List.getElem_cons_drop, List.take_append_drop]
  have hshows : e.Shows v := by
    refine ⟨hlines, ?_, ?_⟩
    · have hline := h.line
      simp [v]
      omega
    · have hcolumn : e.column ≤ e.currentLine.length := h.column
      simp [v, hcolumn]
  refine ⟨v, hshows, View.plain_iff.mpr ?_⟩
  rw [← hlines]
  exact h.plain

/-- The later editor is at a place again, and its flat text is the edited one. -/
structure Follows (edit : Flat → Flat) (e e' : Editor) : Prop where
  placed : e'.Placed
  flat : e'.flat = edit e.flat

theorem Follows.trans {edit edit' : Flat → Flat} {e'' : Editor} (h : Follows edit e e')
    (h' : Follows edit' e' e'') : Follows (fun x => edit' (edit x)) e e'' :=
  ⟨h'.placed, by rw [h'.flat, h.flat]⟩

theorem Shows.follows {v' : View} {edit : Flat → Flat} (h : e.Shows v) (h' : e'.Shows v')
    (hplain : v'.Plain)
    (hflat : Flat.between v'.behind v'.ahead = edit (.between v.behind v.ahead)) :
    Follows edit e e' :=
  ⟨h'.placed hplain, by rw [h'.flat, h.flat, hflat]⟩

theorem insertIdx_append {α : Type} {n : Nat} (before after : List α) (a : α)
    (h : before.length = n) : (before ++ after).insertIdx n a = before ++ a :: after := by
  subst h
  exact List.modifyTailIdx_add (List.cons a) 0 before after

theorem eraseIdx_append {α : Type} {n : Nat} (before after : List α) (a : α)
    (h : before.length = n) : (before ++ a :: after).eraseIdx n = before ++ after := by
  subst h
  simp [List.eraseIdx_append]

/-- Another line in place of the one at the cursor. -/
theorem Shows.withLine (h : e.Shows v) {left right : List Char}
    (hlines : e'.lines = (e.withLine (left.reverse ++ right)).lines) (hline : e'.line = e.line)
    (hcolumn : e'.column = left.length) : e'.Shows ⟨v.above, left, right, v.below⟩ := by
  refine ⟨?_, hline.trans h.line, hcolumn⟩
  rw [hlines]
  simp [Editor.withLine, h.lines, h.line, View.lines]

/-- A letter is typed in the line of the cursor. -/
theorem follows_insertChar {c : Char} (hc : c ≠ '\n') (h : e.Placed) :
    Follows (.type [c]) e (e.insertChar c) := by
  obtain ⟨v, hv, hplain⟩ := h.exists_shows
  have hline : e.currentLine.insertIdx e.column c = (c :: v.left).reverse ++ v.right := by
    rw [hv.currentLine, hv.column, insertIdx_append _ _ _ List.length_reverse]
    simp
  have hshows : (e.insertChar c).Shows ⟨v.above, c :: v.left, v.right, v.below⟩ := by
    refine hv.withLine ?_ rfl ?_
    · rw [← hline]
      rfl
    · simp [insertChar, hv.column]
  have hplain' : View.Plain ⟨v.above, c :: v.left, v.right, v.below⟩ :=
    ⟨hplain.above, by simp [hc.symm, hplain.left], hplain.right, hplain.below⟩
  refine hv.follows hshows hplain' ?_
  rw [Flat.type_between]
  rfl

/-- What is behind the cursor goes to the next line, which is to type a newline. -/
theorem follows_breakLine (h : e.Placed) : Follows (.type ['\n']) e e.breakLine := by
  obtain ⟨v, hv, hplain⟩ := h.exists_shows
  have htake : e.currentLine.take e.column = v.left.reverse := by
    rw [hv.currentLine, hv.column]
    exact List.take_left' List.length_reverse
  have hdrop : e.currentLine.drop e.column = v.right := by
    rw [hv.currentLine, hv.column]
    exact List.drop_left' List.length_reverse
  have hfirst : (e.withLine v.left.reverse).Shows ⟨v.above, v.left, [], v.below⟩ := by
    refine hv.withLine ?_ rfl hv.column
    rw [List.append_nil]
  have hshows : e.breakLine.Shows ⟨v.left.reverse :: v.above, [], v.right, v.below⟩ := by
    refine ⟨?_, ?_, rfl⟩
    · simp only [breakLine, htake, hdrop]
      rw [hfirst.lines, View.lines_eq_append, insertIdx_append _ _ _ (by simp [hv.line])]
      simp [View.lines]
    · simp [breakLine, hv.line]
  have hplain' : View.Plain ⟨v.left.reverse :: v.above, [], v.right, v.below⟩ := by
    refine ⟨?_, by simp, hplain.right, hplain.below⟩
    exact List.forall_mem_cons.mpr ⟨by simp [hplain.left], hplain.above⟩
  refine hv.follows hshows hplain' ?_
  rw [Flat.type_between]
  simp [View.behind, View.ahead]

section Cases

variable {above below : List (List Char)} {left right next : List Char} {c : Char}

theorem Shows.inside (h : e.Shows ⟨above, left, c :: right, below⟩) : e.column < e.lineLength := by
  rw [h.lineLength, h.column]
  simp

theorem Shows.atEnd (h : e.Shows ⟨above, left, [], below⟩) : ¬e.column < e.lineLength := by
  rw [h.lineLength, h.column]
  simp

theorem Shows.hasNext (h : e.Shows ⟨above, left, right, next :: below⟩) : e.hasNext = true := by
  simp [Editor.hasNext, h.lines, h.line, View.lines]

theorem Shows.hasNext_last (h : e.Shows ⟨above, left, right, []⟩) : ¬e.hasNext = true := by
  simp [Editor.hasNext, h.lines, h.line, View.lines]

theorem Shows.deleteChar (h : e.Shows ⟨above, left, c :: right, below⟩) :
    e.deleteChar.Shows ⟨above, left, right, below⟩ := by
  have hline : e.currentLine.eraseIdx e.column = left.reverse ++ right := by
    rw [h.currentLine, h.column, eraseIdx_append _ _ _ List.length_reverse]
  refine h.withLine ?_ rfl h.column
  rw [← hline]
  rfl

/-- At its end a line is joined with the next one, and the cursor stands between the two. -/
theorem Shows.joinNext (h : e.Shows ⟨above, left, [], next :: below⟩) :
    e.joinNext.Shows ⟨above, left, next, below⟩ := by
  have hnext : e.lines.getD (e.line + 1) [] = next := by
    simp [h.lines, h.line, View.lines]
  have hcurrent : e.currentLine = left.reverse := by
    rw [h.currentLine, List.append_nil]
  have hjoined : (e.withLine (left.reverse ++ next)).Shows ⟨above, left, next, next :: below⟩ :=
    h.withLine rfl rfl h.column
  refine ⟨?_, h.line, h.column⟩
  simp only [Editor.joinNext, hnext, hcurrent]
  rw [hjoined.lines, View.lines_eq_append, eraseIdx_append _ _ _ (by simp [h.line])]
  simp [View.lines]

/-- The same buffer with another place of its cursor. -/
theorem Shows.moved {v' : View} (h : e.Shows v) (hlines : e'.lines = e.lines)
    (hview : v.lines = v'.lines) (hline : e'.line = v'.above.length)
    (hcolumn : e'.column = v'.left.length) : e'.Shows v' :=
  ⟨by rw [hlines, h.lines, hview], hline, hcolumn⟩

theorem Shows.before (h : e.Shows ⟨above, c :: left, right, below⟩) :
    Shows { e with column := e.column - 1 } ⟨above, left, c :: right, below⟩ :=
  h.moved rfl (by simp [View.lines]) h.line (by simp [h.column])

/-- At the end of the line before. -/
theorem Shows.previousEnd {previous : List Char} (h : e.Shows ⟨previous :: above, [], right, below⟩) :
    Shows (lineEnd { e with line := e.line - 1 }) ⟨above, previous.reverse, [], right :: below⟩ := by
  have hline : e.line - 1 = above.length := by simp [h.line]
  have hcurrent : e.lines[above.length]?.getD [] = previous := by
    simp [h.lines, View.lines]
  refine h.moved rfl (by simp [View.lines]) hline ?_
  simp [lineEnd, Editor.lineLength, Editor.currentLine, hline, hcurrent]

theorem Shows.length_lines (h : e.Shows ⟨above, left, right, below⟩) :
    e.lines.length = above.length + (below.length + 1) := by
  simp [h.lines, View.lines]

theorem Shows.deleteLine_lines (h : e.Shows ⟨above, left, right, below⟩)
    (hseveral : e.lines.length ≠ 1) : e.deleteLine.lines = above.reverse ++ below := by
  rw [deleteLine, if_neg hseveral]
  dsimp only
  rw [h.lines, h.line, View.lines, eraseIdx_append _ _ _ List.length_reverse]

theorem Shows.deleteLine_line (h : e.Shows ⟨above, left, right, below⟩)
    (hseveral : e.lines.length ≠ 1) :
    e.deleteLine.line = min above.length (above.length + below.length - 1) := by
  have hlines := h.deleteLine_lines hseveral
  rw [deleteLine, if_neg hseveral] at hlines ⊢
  dsimp only at hlines ⊢
  rw [hlines, h.line, List.length_append, List.length_reverse]

theorem deleteLine_column (h : e.lines.length ≠ 1) : e.deleteLine.column = 0 := by
  rw [deleteLine, if_neg h]

end Cases

/-- In the line a letter is deleted, and at its end the newline, unless this is the end of the text.
-/
theorem follows_deleteForward (h : e.Placed) : Follows .delete e e.deleteForward := by
  obtain ⟨⟨above, left, right, below⟩, hv, hplain⟩ := h.exists_shows
  obtain ⟨habove, hleft, hright, hbelow⟩ := hplain
  cases right with
  | cons c right =>
    have hplain' : View.Plain ⟨above, left, right, below⟩ :=
      ⟨habove, hleft, fun h => hright (List.mem_cons_of_mem c h), hbelow⟩
    rw [deleteForward, if_pos hv.inside]
    exact hv.follows hv.deleteChar hplain' (Flat.delete_between _ _ c).symm
  | nil =>
    rw [deleteForward, if_neg hv.atEnd]
    cases below with
    | cons next below =>
      have hplain' : View.Plain ⟨above, left, next, below⟩ := by
        obtain ⟨hnext, hrest⟩ := List.forall_mem_cons.mp hbelow
        exact ⟨habove, hleft, hnext, hrest⟩
      rw [if_pos hv.hasNext]
      exact hv.follows hv.joinNext hplain' (Flat.delete_between _ _ '\n').symm
    | nil =>
      rw [if_neg hv.hasNext_last]
      exact hv.follows hv ⟨habove, hleft, hright, hbelow⟩ (Flat.delete_end _).symm

/-- Removes the character at the cursor, unless the cursor is at the end of the line. -/
theorem follows_deleteChar (h : e.Placed) :
    Follows .deleteInLine e (if e.column < e.lineLength then e.deleteChar else e) := by
  obtain ⟨⟨above, left, right, below⟩, hv, hplain⟩ := h.exists_shows
  cases right with
  | cons c right =>
    obtain ⟨habove, hleft, hright, hbelow⟩ := hplain
    have hc : c ≠ '\n' := by
      rintro rfl
      exact hright List.mem_cons_self
    have hplain' : View.Plain ⟨above, left, right, below⟩ :=
      ⟨habove, hleft, fun h => hright (List.mem_cons_of_mem c h), hbelow⟩
    rw [if_pos hv.inside]
    exact hv.follows hv.deleteChar hplain' (Flat.deleteInLine_between _ _ hc).symm
  | nil =>
    rw [if_neg hv.atEnd]
    refine hv.follows hv hplain ?_
    cases below with
    | cons next below => exact (Flat.deleteInLine_newline _ _).symm
    | nil => exact (Flat.deleteInLine_end _).symm

/-- A step forward in the line, to the next line, or none at the end of the text. -/
theorem follows_stepForward (h : e.Placed) : Follows .forth e e.stepForward := by
  obtain ⟨⟨above, left, right, below⟩, hv, hplain⟩ := h.exists_shows
  obtain ⟨habove, hleft, hright, hbelow⟩ := hplain
  cases right with
  | cons c right =>
    have hshows : Shows { e with column := e.column + 1 } ⟨above, c :: left, right, below⟩ :=
      hv.moved rfl (by simp [View.lines]) hv.line (by simp [hv.column])
    have hplain' : View.Plain ⟨above, c :: left, right, below⟩ := by
      simp only [List.mem_cons, not_or] at hright
      exact ⟨habove, by simp [hleft, hright.1], hright.2, hbelow⟩
    rw [stepForward, if_pos hv.inside]
    exact hv.follows hshows hplain' (Flat.forth_between _ _ c).symm
  | nil =>
    rw [stepForward, if_neg hv.atEnd]
    cases below with
    | cons next below =>
      have hshows : Shows { e with line := e.line + 1, column := 0 }
          ⟨left.reverse :: above, [], next, below⟩ :=
        hv.moved rfl (by simp [View.lines]) (by simp [hv.line]) rfl
      have hplain' : View.Plain ⟨left.reverse :: above, [], next, below⟩ := by
        obtain ⟨hnext, hrest⟩ := List.forall_mem_cons.mp hbelow
        exact ⟨List.forall_mem_cons.mpr ⟨by simp [hleft], habove⟩, List.not_mem_nil, hnext, hrest⟩
      rw [if_pos hv.hasNext]
      refine hv.follows hshows hplain' ?_
      have hforth := Flat.forth_between (left ++ above.flatMap fun line => '\n' :: line.reverse)
        (next ++ below.flatMap fun line => '\n' :: line) '\n'
      simpa [View.behind, View.ahead] using hforth.symm
    | nil =>
      rw [if_neg hv.hasNext_last]
      exact hv.follows hv ⟨habove, hleft, hright, hbelow⟩ (Flat.forth_end _).symm

/-- A step back in the line, to the end of the line before, or none at the start of the text. -/
theorem follows_stepBack (h : e.Placed) : Follows .back e e.stepBack := by
  obtain ⟨⟨above, left, right, below⟩, hv, hplain⟩ := h.exists_shows
  obtain ⟨habove, hleft, hright, hbelow⟩ := hplain
  cases left with
  | cons c left =>
    have hcolumn : 0 < e.column := by simp [hv.column]
    have hplain' : View.Plain ⟨above, left, c :: right, below⟩ := by
      simp only [List.mem_cons, not_or] at hleft
      exact ⟨habove, hleft.2, by simp [hleft.1, hright], hbelow⟩
    rw [stepBack, if_pos hcolumn]
    exact hv.follows hv.before hplain' (Flat.back_between _ _ c).symm
  | nil =>
    have hcolumn : ¬0 < e.column := by simp [hv.column]
    rw [stepBack, if_neg hcolumn]
    cases above with
    | cons previous above =>
      have hline : 0 < e.line := by simp [hv.line]
      have hplain' : View.Plain ⟨above, previous.reverse, [], right :: below⟩ := by
        obtain ⟨hprevious, hrest⟩ := List.forall_mem_cons.mp habove
        exact ⟨hrest, by simp [hprevious], List.not_mem_nil,
          List.forall_mem_cons.mpr ⟨hright, hbelow⟩⟩
      rw [if_pos hline]
      exact hv.follows hv.previousEnd hplain' (Flat.back_between _ _ '\n').symm
    | nil =>
      have hline : ¬0 < e.line := by simp [hv.line]
      rw [if_neg hline]
      exact hv.follows hv ⟨habove, hleft, hright, hbelow⟩ rfl

/-- What is in front of the cursor is deleted: a letter of the line, or the newline of the line
before. -/
theorem follows_deleteBackward (h : e.Placed) : Follows .backspace e e.deleteBackward := by
  obtain ⟨⟨above, left, right, below⟩, hv, hplain⟩ := h.exists_shows
  obtain ⟨habove, hleft, hright, hbelow⟩ := hplain
  cases left with
  | cons c left =>
    have hcolumn : 0 < e.column := by simp [hv.column]
    have hplain' : View.Plain ⟨above, left, right, below⟩ :=
      ⟨habove, fun h => hleft (List.mem_cons_of_mem c h), hright, hbelow⟩
    rw [deleteBackward, if_pos hcolumn]
    exact hv.follows hv.before.deleteChar hplain' (Flat.backspace_between _ _ c).symm
  | nil =>
    have hcolumn : ¬0 < e.column := by simp [hv.column]
    rw [deleteBackward, if_neg hcolumn]
    cases above with
    | cons previous above =>
      have hline : 0 < e.line := by simp [hv.line]
      have hplain' : View.Plain ⟨above, previous.reverse, right, below⟩ := by
        obtain ⟨hprevious, hrest⟩ := List.forall_mem_cons.mp habove
        exact ⟨hrest, by simp [hprevious], hright, hbelow⟩
      rw [if_pos hline]
      exact hv.follows hv.previousEnd.joinNext hplain' (Flat.backspace_between _ _ '\n').symm
    | nil =>
      have hline : ¬0 < e.line := by simp [hv.line]
      rw [if_neg hline]
      exact hv.follows hv ⟨habove, hleft, hright, hbelow⟩ rfl

/-- A line is opened below, wherever in its line the cursor is. -/
theorem follows_openLine (h : e.Placed) : Follows .openLine e e.openLine := by
  obtain ⟨v, hv, hplain⟩ := h.exists_shows
  have hshows : e.openLine.Shows ⟨(v.left.reverse ++ v.right) :: v.above, [], [], v.below⟩ := by
    refine ⟨?_, by simp [openLine, enterInsert, hv.line], rfl⟩
    simp only [openLine, enterInsert]
    rw [hv.lines, View.lines_eq_append, insertIdx_append _ _ _ (by simp [hv.line])]
    simp [View.lines]
  have hplain' : View.Plain ⟨(v.left.reverse ++ v.right) :: v.above, [], [], v.below⟩ :=
    ⟨List.forall_mem_cons.mpr ⟨by simp [hplain.left, hplain.right], hplain.above⟩,
      List.not_mem_nil, List.not_mem_nil, hplain.below⟩
  refine hv.follows hshows hplain' ?_
  have hopened : (Flat.between v.behind v.ahead).openLine = _ :=
    Flat.openLine_between hplain.right (View.atBreak_below v.below)
  rw [hopened]
  simp [View.behind, View.ahead]

/-- A line is deleted with its newline, and the next line takes its place. Of the last line the
newline in front of it goes, and the only line is emptied. -/
theorem follows_deleteLine (h : e.Placed) : Follows .deleteLine e e.deleteLine := by
  obtain ⟨⟨above, left, right, below⟩, hv, hplain⟩ := h.exists_shows
  obtain ⟨habove, hleft, hright, hbelow⟩ := hplain
  have hlength := hv.length_lines
  cases below with
  | cons next below =>
    rw [List.length_cons] at hlength
    have hseveral : e.lines.length ≠ 1 := by omega
    have hline : e.deleteLine.line = above.length := by
      rw [hv.deleteLine_line hseveral, List.length_cons]
      omega
    have hshows : e.deleteLine.Shows ⟨above, [], next, below⟩ :=
      ⟨hv.deleteLine_lines hseveral, hline, deleteLine_column hseveral⟩
    have hplain' : View.Plain ⟨above, [], next, below⟩ := by
      obtain ⟨hnext, hrest⟩ := List.forall_mem_cons.mp hbelow
      exact ⟨habove, List.not_mem_nil, hnext, hrest⟩
    refine hv.follows hshows hplain' ?_
    exact (Flat.deleteLine_between hleft hright (View.atBreak_above above)).symm
  | nil =>
    cases above with
    | cons previous above =>
      rw [List.length_cons] at hlength
      have hseveral : e.lines.length ≠ 1 := by omega
      have hline : e.deleteLine.line = above.length := by
        rw [hv.deleteLine_line hseveral, List.length_cons, List.length_nil]
        omega
      have hshows : e.deleteLine.Shows ⟨above, [], previous, []⟩ := by
        refine ⟨?_, hline, deleteLine_column hseveral⟩
        rw [hv.deleteLine_lines hseveral]
        simp [View.lines]
      obtain ⟨hprevious, hrest⟩ := List.forall_mem_cons.mp habove
      refine hv.follows hshows ⟨hrest, List.not_mem_nil, hprevious, hbelow⟩ ?_
      have hdeleted := Flat.deleteLine_last hleft hright hprevious (View.atBreak_above above)
      simpa [View.behind, View.ahead] using hdeleted.symm
    | nil =>
      have hsingle : e.lines.length = 1 := hlength
      have hshows : e.deleteLine.Shows ⟨[], [], [], []⟩ := by
        rw [deleteLine, if_pos hsingle]
        exact ⟨rfl, hv.line, rfl⟩
      refine hv.follows hshows ⟨habove, List.not_mem_nil, List.not_mem_nil, hbelow⟩ ?_
      have hdeleted := Flat.deleteLine_only hleft hright
      simpa [View.behind, View.ahead] using hdeleted.symm

end Editor

end PocketUnix
