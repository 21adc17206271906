import PocketUnix.Proofs.Text.Slices
import PocketUnix.Session.PromptLine

/-!
# The letters on both sides of the cursor

The cursor counts bytes, but a line that is typed is two lists of letters, those before the cursor
and those behind it. Every edit is one of these two lists. Whatever else is done to the line puts
another one in its place, and its cursor where no letter lies across it.
-/

namespace PocketUnix.PromptLine

open PocketUnix.Chars (byteLength cut)

/-- What changes the line letter by letter. -/
inductive Edit where
  | insertChar (c : Char)
  | backspace | delete | left | right | home | finish
  deriving DecidableEq, Repr

/-- What can be done to the prompt line. -/
inductive Operation where
  | edit (change : Edit)
  | set (text : String) (offset : Nat)
  | previous | next | submit | reset
  deriving DecidableEq, Repr

def Edit.apply (change : Edit) (p : PromptLine) : PromptLine :=
  match change with
  | .insertChar c => p.insertChar c
  | .backspace => p.backspace
  | .delete => p.delete
  | .left => p.left
  | .right => p.right
  | .home => p.home
  | .finish => p.finish

def Operation.apply (operation : Operation) (p : PromptLine) : PromptLine :=
  match operation with
  | .edit change => change.apply p
  | .set text offset => p.set text offset
  | .previous => p.previous
  | .next => p.next
  | .submit => p.submit
  | .reset => p.reset

/-- The line after some operations. -/
def after (p : PromptLine) (operations : List Operation) : PromptLine :=
  operations.foldl (fun p operation => operation.apply p) p

/-- What an edit does to the letters before and behind the cursor. -/
def Edit.onSides (change : Edit) (sides : List Char × List Char) : List Char × List Char :=
  match change with
  | .insertChar c => (if Chars.isControl c then sides.1 else sides.1 ++ [c], sides.2)
  | .backspace => (sides.1.dropLast, sides.2)
  | .delete => (sides.1, sides.2.tail)
  | .left => (sides.1.dropLast, sides.1.getLast?.toList ++ sides.2)
  | .right => (sides.1 ++ sides.2.head?.toList, sides.2.tail)
  | .home => ([], sides.1 ++ sides.2)
  | .finish => (sides.1 ++ sides.2, [])

/-- The text is made up of the two parts, and the cursor is where they meet. -/
structure Splits (p : PromptLine) (sides : List Char × List Char) : Prop where
  text : p.text = .ofList (sides.1 ++ sides.2)
  cursor : p.cursor = byteLength sides.1

/-- The cursor stands between two letters, and an entry that is shown is one of the history. -/
structure Placed (p : PromptLine) : Prop where
  splits : ∃ sides, p.Splits sides
  recalled : ∀ r, p.recalled = some r → r.index < p.history.length

variable {p : PromptLine} {sides : List Char × List Char}

theorem Splits.letters (h : p.Splits sides) : p.text.toList = sides.1 ++ sides.2 := by
  rw [h.text, String.toList_ofList]

theorem Splits.sides_eq (h : p.Splits sides) : p.sides = sides := by
  rw [PromptLine.sides, h.letters, h.cursor, Chars.cut_byteLength_append]

/-- Put together again, the parts are the line. -/
theorem Splits.withSides_eq (h : p.Splits sides) : p.withSides sides.1 sides.2 = p := by
  rw [withSides, ← h.text, ← h.cursor]

theorem Placed.splits_sides (h : p.Placed) : p.Splits p.sides := by
  obtain ⟨sides, hsides⟩ := h.splits
  rwa [hsides.sides_eq]

theorem splits_withSides (before behind : List Char) (p : PromptLine) :
    (p.withSides before behind).Splits (before, behind) :=
  ⟨rfl, rfl⟩

theorem splits_set (text : String) (offset : Nat) (p : PromptLine) :
    (p.set text offset).Splits (cut offset text.toList) where
  text := by rw [Chars.cut_append, String.ofList_toList]; rfl
  cursor := rfl

/-- The parts may meet elsewhere. -/
theorem Splits.moved (h : p.Splits sides) (before behind : List Char)
    (happend : before ++ behind = sides.1 ++ sides.2) :
    Splits { p with cursor := byteLength before } (before, behind) :=
  ⟨by rw [happend]; exact h.text, rfl⟩

/-- The cursor goes back over the last letter in front of it. -/
theorem Splits.left (h : p.Splits sides) : p.left.Splits (Edit.left.onSides sides) := by
  obtain ⟨before, behind⟩ := sides
  unfold PromptLine.left
  rw [h.sides_eq]
  rcases List.eq_nil_or_concat before with rfl | ⟨front, c, rfl⟩
  · exact h
  · rw [List.concat_eq_append] at h ⊢
    have hcursor : p.cursor - c.utf8Size = byteLength front := by simp [h.cursor]
    have hsides : Edit.left.onSides (front ++ [c], behind) = (front, c :: behind) := by
      simp [Edit.onSides]
    have hmoved := h.moved front (c :: behind) (by simp)
    rw [hsides]
    simpa only [List.getLast?_concat, hcursor] using hmoved

/-- The cursor goes on over the first letter behind it. -/
theorem Splits.right (h : p.Splits sides) : p.right.Splits (Edit.right.onSides sides) := by
  obtain ⟨before, behind⟩ := sides
  unfold PromptLine.right
  rw [h.sides_eq]
  cases behind with
  | nil => simpa [Edit.onSides] using h
  | cons c rest =>
    have hcursor : p.cursor + c.utf8Size = byteLength (before ++ [c]) := by simp [h.cursor]
    have hmoved := h.moved (before ++ [c]) rest (by simp)
    rw [← hcursor] at hmoved
    exact hmoved

/-- An edit of the line is that of its two parts. -/
theorem Splits.edit (h : p.Splits sides) (change : Edit) :
    (change.apply p).Splits (change.onSides sides) := by
  cases change with
  | insertChar c =>
    simp only [Edit.apply, PromptLine.insertChar, Edit.onSides, h.sides_eq]
    split
    · exact h
    · exact splits_withSides _ _ p
  | backspace =>
    simp only [Edit.apply, PromptLine.backspace, Edit.onSides, h.sides_eq]
    exact splits_withSides _ _ p
  | delete =>
    simp only [Edit.apply, PromptLine.delete, Edit.onSides, h.sides_eq]
    exact splits_withSides _ _ p
  | left => exact h.left
  | right => exact h.right
  | home => exact h.moved [] _ (List.nil_append (sides.1 ++ sides.2))
  | finish =>
    have hend : Text.byteLength p.text = byteLength (sides.1 ++ sides.2) := by
      rw [Text.byteLength, h.letters]
    have hmoved := h.moved _ [] (List.append_nil (sides.1 ++ sides.2))
    rw [← hend] at hmoved
    exact hmoved

/-- An edit changes the text and the cursor at most. -/
theorem recalled_edit (change : Edit) (p : PromptLine) :
    (change.apply p).recalled = p.recalled ∧ (change.apply p).history = p.history := by
  cases change with
  | insertChar c =>
    simp only [Edit.apply, PromptLine.insertChar]
    generalize p.sides = sides
    split <;> exact ⟨rfl, rfl⟩
  | backspace | delete =>
    simp only [Edit.apply, PromptLine.backspace, PromptLine.delete]
    generalize p.sides = sides
    exact ⟨rfl, rfl⟩
  | left | right =>
    simp only [Edit.apply, PromptLine.left, PromptLine.right]
    generalize p.sides = sides
    split <;> exact ⟨rfl, rfl⟩
  | home | finish => exact ⟨rfl, rfl⟩

/-- An entry of the history is shown with the cursor at its end. -/
theorem placed_recallEntry {index : Nat} (hindex : index < p.history.length) (draft : String) :
    (p.recallEntry index draft).Placed where
  splits := ⟨_, splits_set _ _ _⟩
  recalled := by
    rintro r hr
    obtain rfl := Option.some.inj hr
    exact hindex

theorem placed_reset (p : PromptLine) : p.reset.Placed :=
  ⟨⟨([], []), rfl, rfl⟩, nofun⟩

/-- An older entry is shown, or the same one. -/
theorem Placed.previous (h : p.Placed) : p.previous.Placed := by
  unfold PromptLine.previous
  split
  · next r hr =>
    have hindex := h.recalled r hr
    exact placed_recallEntry (by omega) r.draft
  · split
    · exact h
    · next hhistory =>
      have hlength : 0 < p.history.length := List.length_pos_iff.mpr (by simpa using hhistory)
      exact placed_recallEntry (by omega) p.text

/-- A newer entry is shown, or the draft. -/
theorem Placed.next (h : p.Placed) : p.next.Placed := by
  unfold PromptLine.next
  split
  · exact h
  · split
    · next hindex => exact placed_recallEntry hindex _
    · exact ⟨⟨_, splits_set _ _ _⟩, nofun⟩

/-- No operation leaves the cursor within a letter, or shows what is not in the history. -/
theorem Placed.apply (h : p.Placed) (operation : Operation) : (operation.apply p).Placed := by
  cases operation with
  | edit change =>
    obtain ⟨hrecalled, hhistory⟩ := recalled_edit change p
    refine ⟨⟨_, h.splits_sides.edit change⟩, ?_⟩
    rw [Operation.apply, hrecalled, hhistory]
    exact h.recalled
  | set text offset => exact ⟨⟨_, splits_set text offset p⟩, h.recalled⟩
  | previous => exact h.previous
  | next => exact h.next
  | submit =>
    unfold Operation.apply PromptLine.submit
    dsimp only
    split
    · exact placed_reset p
    · exact placed_reset _
  | reset => exact placed_reset p

/-- No operation leaves the cursor within a letter. -/
theorem Placed.after (h : p.Placed) (operations : List Operation) :
    (p.after operations).Placed := by
  induction operations generalizing p with
  | nil => exact h
  | cons operation rest ih => exact ih (h.apply operation)

/-- The two parts are edited step by step along with the line. -/
theorem Splits.edits (h : p.Splits sides) (edits : List Edit) :
    (p.after (edits.map .edit)).Splits
      (edits.foldl (fun sides change => change.onSides sides) sides) := by
  induction edits generalizing p sides with
  | nil => exact h
  | cons change rest ih => exact ih (h.edit change)

end PocketUnix.PromptLine
