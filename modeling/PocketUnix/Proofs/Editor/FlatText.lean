import PocketUnix.Session.Key

/-!
# Flat texts

A text with a place in it, where a newline is a character like any other. What is typed, taken away
and passed at the place is described by offsets, and each of these edits is then read off the two
halves of the text.
-/

namespace PocketUnix

/-- A text with a place before one of its characters or at its end. -/
structure Flat where
  text : List Char
  offset : Nat
  deriving DecidableEq, Repr

namespace Flat

/-- Puts letters in at the place and goes behind them. -/
def type (letters : List Char) (x : Flat) : Flat :=
  ⟨x.text.take x.offset ++ letters ++ x.text.drop x.offset, x.offset + letters.length⟩

def back (x : Flat) : Flat := { x with offset := x.offset - 1 }

def forth (x : Flat) : Flat := { x with offset := min (x.offset + 1) x.text.length }

/-- Removes the character at the place, if there is one. -/
def delete (x : Flat) : Flat := { x with text := x.text.eraseIdx x.offset }

/-- Removes the character in front of the place, if there is one. -/
def backspace (x : Flat) : Flat := if x.offset = 0 then x else x.back.delete

/-- Removes the character at the place, unless it is a newline. -/
def deleteInLine (x : Flat) : Flat := if x.text[x.offset]? = some '\n' then x else x.delete

/-- The offset at which the line of the place begins. -/
def lineStart (x : Flat) : Nat :=
  x.offset - ((x.text.take x.offset).reverse.takeWhile (· != '\n')).length

/-- The offset at which the line of the place ends. -/
def lineEnd (x : Flat) : Nat :=
  x.offset + ((x.text.drop x.offset).takeWhile (· != '\n')).length

/-- Puts a newline in at the end of the line and goes behind it. -/
def openLine (x : Flat) : Flat := type ['\n'] { x with offset := x.lineEnd }

/-- Removes the line with its newline and goes to the next line. The last line leaves no newline
behind, and the place is then at the start of the line before. -/
def deleteLine (x : Flat) : Flat :=
  if x.lineEnd < x.text.length then
    ⟨x.text.take x.lineStart ++ x.text.drop (x.lineEnd + 1), x.lineStart⟩
  else
    let rest := x.text.take (x.lineStart - 1)
    ⟨rest, lineStart ⟨rest, rest.length⟩⟩

/-- The place between two halves of a text, of which the first one is given back to front. -/
def between (behind ahead : List Char) : Flat := ⟨behind.reverse ++ ahead, behind.length⟩

variable (behind ahead : List Char) (c : Char)

@[simp] theorem text_between : (between behind ahead).text = behind.reverse ++ ahead := rfl

@[simp] theorem offset_between : (between behind ahead).offset = behind.length := rfl

theorem take_between : (between behind ahead).text.take behind.length = behind.reverse := by simp

theorem drop_between : (between behind ahead).text.drop behind.length = ahead := by simp

theorem type_between (letters : List Char) :
    (between behind ahead).type letters = between (letters.reverse ++ behind) ahead := by
  rw [type, offset_between, take_between, drop_between]
  simp [between, Nat.add_comm]

theorem back_between : (between (c :: behind) ahead).back = between behind (c :: ahead) := by
  simp [back, between]

theorem forth_between : (between behind (c :: ahead)).forth = between (c :: behind) ahead := by
  simp [forth, between]

theorem forth_end : (between behind []).forth = between behind [] := by
  simp [forth, between]

theorem delete_between : (between behind (c :: ahead)).delete = between behind ahead := by
  simp [delete, between, List.eraseIdx_append]

theorem delete_end : (between behind []).delete = between behind [] := by
  simp [delete, between, List.eraseIdx_of_length_le]

theorem backspace_between : (between (c :: behind) ahead).backspace = between behind ahead := by
  have hoffset : (between (c :: behind) ahead).offset ≠ 0 := by simp
  rw [backspace, if_neg hoffset, back_between, delete_between]

theorem deleteInLine_between {c : Char} (hc : c ≠ '\n') :
    (between behind (c :: ahead)).deleteInLine = between behind ahead := by
  have hletter : (between behind (c :: ahead)).text[(between behind (c :: ahead)).offset]? ≠
      some '\n' := by
    simp [hc]
  rw [deleteInLine, if_neg hletter, delete_between]

theorem deleteInLine_newline :
    (between behind ('\n' :: ahead)).deleteInLine = between behind ('\n' :: ahead) := by
  simp [deleteInLine]

theorem deleteInLine_end : (between behind []).deleteInLine = between behind [] := by
  have hletter : (between behind []).text[(between behind []).offset]? ≠ some '\n' := by simp
  rw [deleteInLine, if_neg hletter, delete_end]

/-- The text is at its end or at the end of a line. -/
def AtBreak (text : List Char) : Prop := text = [] ∨ ∃ rest, text = '\n' :: rest

/-- A line goes up to its newline or to the end of the text. -/
theorem takeWhile_line {line rest : List Char} (hline : '\n' ∉ line) (hrest : AtBreak rest) :
    (line ++ rest).takeWhile (· != '\n') = line := by
  have hletters : ∀ c ∈ line, (c != '\n') = true := by
    intro c hc
    rw [bne_iff_ne]
    rintro rfl
    exact hline hc
  rw [List.takeWhile_append_of_pos hletters]
  obtain rfl | ⟨tail, rfl⟩ := hrest
  · simp
  · simp

variable {left right : List Char} {behind ahead}

theorem lineStart_between (hleft : '\n' ∉ left) (hbehind : AtBreak behind) :
    (between (left ++ behind) ahead).lineStart = behind.length := by
  have htake := take_between (left ++ behind) ahead
  rw [lineStart, offset_between, htake, List.reverse_reverse, takeWhile_line hleft hbehind,
    List.length_append]
  omega

theorem lineEnd_between (hright : '\n' ∉ right) (hahead : AtBreak ahead) :
    (between behind (right ++ ahead)).lineEnd = behind.length + right.length := by
  rw [lineEnd, offset_between, drop_between, takeWhile_line hright hahead]

/-- To open a line is to pass what is left of this one and to type a newline there. -/
theorem openLine_between (hright : '\n' ∉ right) (hahead : AtBreak ahead) :
    (between behind (right ++ ahead)).openLine =
      between ('\n' :: (right.reverse ++ behind)) ahead := by
  have hplace : { between behind (right ++ ahead) with
      offset := (between behind (right ++ ahead)).lineEnd } =
        between (right.reverse ++ behind) ahead := by
    rw [lineEnd_between hright hahead]
    simp [between, Nat.add_comm]
  rw [openLine, hplace, type_between]
  rfl

/-- A line that a newline follows goes with it. -/
theorem deleteLine_between (hleft : '\n' ∉ left) (hright : '\n' ∉ right)
    (hbehind : AtBreak behind) :
    (between (left ++ behind) (right ++ '\n' :: ahead)).deleteLine = between behind ahead := by
  have hstart : (between (left ++ behind) (right ++ '\n' :: ahead)).lineStart = behind.length :=
    lineStart_between hleft hbehind
  have hend : (between (left ++ behind) (right ++ '\n' :: ahead)).lineEnd =
      (left ++ behind).length + right.length :=
    lineEnd_between hright (.inr ⟨ahead, rfl⟩)
  have htext : (between (left ++ behind) (right ++ '\n' :: ahead)).text =
      behind.reverse ++ (left.reverse ++ (right ++ '\n' :: ahead)) := by
    simp
  have hlength : (left ++ behind).length + right.length <
      (behind.reverse ++ (left.reverse ++ (right ++ '\n' :: ahead))).length := by
    simp
    omega
  have hrest : (behind.reverse ++ (left.reverse ++ (right ++ '\n' :: ahead))).drop
      ((left ++ behind).length + right.length + 1) = ahead := by
    have hline : behind.reverse ++ (left.reverse ++ (right ++ '\n' :: ahead)) =
        (behind.reverse ++ (left.reverse ++ (right ++ ['\n']))) ++ ahead := by
      simp
    rw [hline]
    apply List.drop_left'
    simp
    omega
  have hfront : (behind.reverse ++ (left.reverse ++ (right ++ '\n' :: ahead))).take
      behind.length = behind.reverse :=
    List.take_left' List.length_reverse
  rw [deleteLine, hend, hstart, htext, if_pos hlength, hrest, hfront, between]

/-- The last line goes with the newline in front of it, if there is one. -/
theorem deleteLine_end (hleft : '\n' ∉ left) (hright : '\n' ∉ right) (hbehind : AtBreak behind) :
    (between (left ++ behind) right).deleteLine =
      ⟨behind.tail.reverse, (between behind.tail []).lineStart⟩ := by
  have hstart : (between (left ++ behind) right).lineStart = behind.length :=
    lineStart_between hleft hbehind
  have hend : (between (left ++ behind) (right ++ [])).lineEnd =
      (left ++ behind).length + right.length :=
    lineEnd_between hright (.inl rfl)
  rw [List.append_nil] at hend
  have hlength : ¬(left ++ behind).length + right.length <
      (between (left ++ behind) right).text.length := by
    simp
    omega
  have hrest : (between (left ++ behind) right).text.take (behind.length - 1) =
      behind.tail.reverse := by
    have htext : (between (left ++ behind) right).text =
        behind.tail.reverse ++ (behind.take 1).reverse ++ (left.reverse ++ right) := by
      cases behind <;> simp
    rw [htext, List.append_assoc]
    apply List.take_left'
    simp
  rw [deleteLine, hend, hstart, if_neg hlength, hrest]
  simp [between]

theorem deleteLine_last {previous : List Char} (hleft : '\n' ∉ left) (hright : '\n' ∉ right)
    (hprevious : '\n' ∉ previous) (hbehind : AtBreak behind) :
    (between (left ++ '\n' :: (previous.reverse ++ behind)) right).deleteLine =
      between behind previous := by
  have hstart : (between (previous.reverse ++ behind) []).lineStart = behind.length :=
    lineStart_between (by simpa using hprevious) hbehind
  rw [deleteLine_end hleft hright (.inr ⟨_, rfl⟩), List.tail_cons, hstart]
  simp [between]

/-- A line that is the whole text is emptied. -/
theorem deleteLine_only (hleft : '\n' ∉ left) (hright : '\n' ∉ right) :
    (between left right).deleteLine = between [] [] := by
  have hempty := deleteLine_end hleft hright (.inl rfl)
  rw [List.append_nil] at hempty
  exact hempty

end Flat

end PocketUnix
