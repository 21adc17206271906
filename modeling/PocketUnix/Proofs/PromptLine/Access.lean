import PocketUnix.Proofs.PromptLine.Sides

/-!
# Byte offsets of the prompt line

The prompt line once more, worked on by byte offsets that are checked: where a text is cut within a
letter, where a letter is taken out behind the end, where an offset falls below the start or an
entry is not in the history, it gives up. From the empty line on it never does, and both do the
same.
-/

namespace PocketUnix

namespace Chars

/-- Puts a letter in at an offset. -/
def insertAt? (offset : Nat) (c : Char) (s : List Char) : Option (List Char) := do
  let (before, behind) ← slices? offset s
  some (before ++ c :: behind)

/-- Takes out the letter at an offset. -/
def removeAt? (offset : Nat) (s : List Char) : Option (List Char) := do
  match ← slices? offset s with
  | (_, []) => none
  | (before, _ :: behind) => some (before ++ behind)

/-- The offset itself if the text can be cut there, else the next one below it. -/
def boundary? : Nat → List Char → Option Nat
  | 0, s => (slices? 0 s).map fun _ => 0
  | offset + 1, s =>
    if (slices? (offset + 1) s).isSome then some (offset + 1) else boundary? offset s

theorem insertAt?_append (s t : List Char) (c : Char) :
    insertAt? (byteLength s) c (s ++ t) = some (s ++ c :: t) := by
  simp [insertAt?, slices?_append]

theorem removeAt?_append (s t : List Char) (c : Char) :
    removeAt? (byteLength s) (s ++ c :: t) = some (s ++ t) := by
  simp [removeAt?, slices?_append]

/-- Between the end of the front part and the offset the text can be cut nowhere else. -/
theorem boundary?_eq {offset n : Nat} {s before behind : List Char}
    (h : CutAt offset s before behind) (hlow : byteLength before ≤ n) (hhigh : n ≤ offset) :
    boundary? n s = some (byteLength before) := by
  have hcut (k : Nat) (hlow : byteLength before ≤ k) (hk : k ≤ offset) :
      cut k s = (before, behind) :=
    CutAt.cut_eq ⟨h.append, hlow, fun c hc => Nat.lt_of_le_of_lt hk (h.next c hc)⟩
  have hslices (k : Nat) (hlow : byteLength before ≤ k) (hk : k ≤ offset) :
      (slices? k s).isSome = decide (byteLength before = k) := by
    rw [slices?, hcut k hlow hk]
    split <;> simp [*]
  induction n with
  | zero =>
    have hzero : byteLength before = 0 := by omega
    have hsome := hslices 0 hlow hhigh
    rw [hzero, decide_eq_true rfl] at hsome
    obtain ⟨parts, hparts⟩ := Option.isSome_iff_exists.mp hsome
    rw [boundary?, hparts, hzero]
    rfl
  | succ n ih =>
    rw [boundary?, hslices (n + 1) hlow hhigh]
    by_cases hend : byteLength before = n + 1
    · simp [hend]
    · simp only [hend, decide_false, Bool.false_eq_true, if_false]
      exact ih (by omega) (by omega)

end Chars

namespace PromptLine

open PocketUnix.Chars (byteLength slices? upTo? from? insertAt? removeAt? boundary?)

namespace Checked

/-- An offset moved back by the bytes of a letter. -/
def back? (offset : Nat) (c : Char) : Option Nat :=
  if c.utf8Size ≤ offset then some (offset - c.utf8Size) else none

def set (text : String) (offset : Nat) (p : PromptLine) : Option PromptLine := do
  let cursor ← boundary? (min offset (Text.byteLength text)) text.toList
  some { p with text, cursor }

def insertChar (c : Char) (p : PromptLine) : Option PromptLine :=
  if Chars.isControl c then some p
  else do
    let cursor := min p.cursor (Text.byteLength p.text)
    let letters ← insertAt? cursor c p.text.toList
    some { p with text := .ofList letters, cursor := cursor + c.utf8Size }

def backspace (p : PromptLine) : Option PromptLine := do
  match (← upTo? p.cursor p.text.toList).getLast? with
  | none => some p
  | some c => do
    let cursor ← back? p.cursor c
    let letters ← removeAt? cursor p.text.toList
    some { p with text := .ofList letters, cursor }

def delete (p : PromptLine) : Option PromptLine :=
  if p.cursor < Text.byteLength p.text then do
    let letters ← removeAt? p.cursor p.text.toList
    some { p with text := .ofList letters }
  else some p

def left (p : PromptLine) : Option PromptLine := do
  match (← upTo? p.cursor p.text.toList).getLast? with
  | none => some p
  | some c => do
    let cursor ← back? p.cursor c
    some { p with cursor }

def right (p : PromptLine) : Option PromptLine := do
  match (← from? p.cursor p.text.toList).head? with
  | none => some p
  | some c => some { p with cursor := p.cursor + c.utf8Size }

def recallEntry (index : Nat) (draft : String) (p : PromptLine) : Option PromptLine := do
  let text ← p.history[index]?
  set text (Text.byteLength text) { p with recalled := some ⟨index, draft⟩ }

def previous (p : PromptLine) : Option PromptLine :=
  match p.recalled with
  | some r => recallEntry (r.index - 1) r.draft p
  | none => if p.history.isEmpty then some p else recallEntry (p.history.length - 1) p.text p

def next (p : PromptLine) : Option PromptLine :=
  match p.recalled with
  | none => some p
  | some r =>
    if r.index + 1 < p.history.length then recallEntry (r.index + 1) r.draft p
    else set r.draft (Text.byteLength r.draft) { p with recalled := none }

def edit (change : Edit) (p : PromptLine) : Option PromptLine :=
  match change with
  | .insertChar c => insertChar c p
  | .backspace => backspace p
  | .delete => delete p
  | .left => left p
  | .right => right p
  | .home => some p.home
  | .finish => some p.finish

def apply (operation : Operation) (p : PromptLine) : Option PromptLine :=
  match operation with
  | .edit change => edit change p
  | .set text offset => set text offset p
  | .previous => previous p
  | .next => next p
  | .submit => some p.submit
  | .reset => some p.reset

def after (p : PromptLine) (operations : List Operation) : Option PromptLine :=
  operations.foldlM (fun p operation => apply operation p) p

variable {p : PromptLine} {sides : List Char × List Char}

/-- Whatever the offset, the cursor comes to stand where the text can be cut. -/
theorem set_eq (text : String) (offset : Nat) (p : PromptLine) :
    set text offset p = some (p.set text offset) := by
  have hcut := Chars.cutAt_cut offset text.toList
  have hlow : byteLength (Chars.cut offset text.toList).1 ≤
      min offset (Text.byteLength text) := by
    have hwhole := Chars.byteLength_le ⟨_, hcut.append⟩
    exact Nat.le_min.mpr ⟨hcut.le, hwhole⟩
  rw [set, Chars.boundary?_eq hcut hlow (Nat.min_le_left _ _)]
  rfl

theorem back?_concat (front : List Char) (c : Char) :
    back? (byteLength (front ++ [c])) c = some (byteLength front) := by
  simp [back?]

/-- A letter is put in where the two parts meet. -/
theorem insertChar_eq (h : p.Splits sides) (c : Char) :
    insertChar c p = some (p.insertChar c) := by
  obtain ⟨before, behind⟩ := sides
  have hwhole : byteLength before ≤ Text.byteLength p.text := by
    rw [Text.byteLength, h.letters]
    exact Chars.byteLength_le (List.prefix_append before behind)
  unfold insertChar PromptLine.insertChar
  split
  · rfl
  · simp only [h.cursor, Nat.min_eq_left hwhole, h.letters, h.sides_eq, Chars.insertAt?_append]
    simp [withSides]

/-- The last letter of the front part is taken out, and the offset moved back by its bytes. -/
theorem backspace_eq (h : p.Splits sides) : backspace p = some p.backspace := by
  obtain ⟨before, behind⟩ := sides
  unfold backspace PromptLine.backspace
  rw [h.letters, h.cursor, h.sides_eq, Chars.upTo?_append]
  rcases List.eq_nil_or_concat before with rfl | ⟨front, c, rfl⟩
  · simp [h.withSides_eq]
  · have hletters : front ++ [c] ++ behind = front ++ c :: behind := by simp
    simp only [List.concat_eq_append, Option.bind_eq_bind, Option.bind_some, List.getLast?_concat,
      back?_concat, hletters, Chars.removeAt?_append, List.dropLast_concat]
    rfl

/-- The first letter of the other part is taken out. -/
theorem delete_eq (h : p.Splits sides) : delete p = some p.delete := by
  obtain ⟨before, behind⟩ := sides
  unfold delete PromptLine.delete
  rw [Text.byteLength, h.letters, h.cursor, h.sides_eq]
  cases behind with
  | nil => simp [h.withSides_eq]
  | cons c rest =>
    have hinside : byteLength before < byteLength (before ++ c :: rest) := by
      have hsize := c.utf8Size_pos
      rw [Chars.byteLength_append, Chars.byteLength_cons]
      omega
    rw [if_pos hinside, Chars.removeAt?_append]
    simp [withSides]

/-- The offset is moved back by the bytes of the last letter in front of it. -/
theorem left_eq (h : p.Splits sides) : left p = some p.left := by
  obtain ⟨before, behind⟩ := sides
  unfold left PromptLine.left
  rw [h.letters, h.cursor, h.sides_eq, Chars.upTo?_append]
  rcases List.eq_nil_or_concat before with rfl | ⟨front, c, rfl⟩
  · rfl
  · simp only [List.concat_eq_append, Option.bind_eq_bind, Option.bind_some, List.getLast?_concat,
      back?_concat]
    simp

theorem right_eq (h : p.Splits sides) : right p = some p.right := by
  obtain ⟨before, behind⟩ := sides
  unfold right PromptLine.right
  rw [h.letters, h.cursor, h.sides_eq, Chars.from?_append]
  cases behind with
  | nil => rfl
  | cons c rest => rfl

/-- No edit of a line in two parts works on an offset out of range. -/
theorem edit_eq (h : p.Splits sides) (change : Edit) : edit change p = some (change.apply p) := by
  cases change with
  | insertChar c => exact insertChar_eq h c
  | backspace => exact backspace_eq h
  | delete => exact delete_eq h
  | left => exact left_eq h
  | right => exact right_eq h
  | home => rfl
  | finish => rfl

theorem recallEntry_eq {index : Nat} (hindex : index < p.history.length) (draft : String) :
    recallEntry index draft p = some (p.recallEntry index draft) := by
  rw [recallEntry, PromptLine.recallEntry, List.getElem?_eq_getElem hindex,
    List.getD_eq_getElem?_getD, List.getElem?_eq_getElem hindex]
  exact set_eq _ _ _

/-- An entry that is shown is one of the history, so that there is one before it or it is the
oldest. -/
theorem previous_eq (h : p.Placed) : previous p = some p.previous := by
  unfold previous PromptLine.previous
  cases hrecalled : p.recalled with
  | some r =>
    have hindex := h.recalled r hrecalled
    exact recallEntry_eq (by omega) r.draft
  | none =>
    cases hhistory : p.history with
    | nil => rfl
    | cons entry rest =>
      have hlast : (entry :: rest).length - 1 < p.history.length := by simp [hhistory]
      exact recallEntry_eq hlast p.text

/-- The next entry is looked for in the history, and the draft is behind it. -/
theorem next_eq (p : PromptLine) : next p = some p.next := by
  unfold next PromptLine.next
  cases p.recalled with
  | none => rfl
  | some r =>
    dsimp only
    split
    · next hindex => exact recallEntry_eq hindex r.draft
    · exact set_eq _ _ _

/-- The same of all operations. -/
theorem apply_eq (h : p.Placed) (operation : Operation) :
    apply operation p = some (operation.apply p) := by
  cases operation with
  | edit change => exact edit_eq h.splits_sides change
  | set text offset => exact set_eq text offset p
  | previous => exact previous_eq h
  | next => exact next_eq p
  | submit => rfl
  | reset => rfl

/-- Operations never work on an offset out of range. -/
theorem after_eq (h : p.Placed) (operations : List Operation) :
    after p operations = some (p.after operations) := by
  induction operations generalizing p with
  | nil => rfl
  | cons operation rest ih =>
    rw [after, List.foldlM_cons, apply_eq h operation]
    exact ih (h.apply operation)

end Checked

/-- The empty line, before anything has been typed or submitted. -/
theorem placed_empty : Placed {} := ⟨⟨([], []), rfl, rfl⟩, nofun⟩

/-- Whatever is done to the line from the empty one on, no text is cut within a letter and no
letter looked for behind the end: the cursor is a position of the text as it is encoded in bytes,
and edits of the line are edits of the letters before and behind it. -/
theorem after_operations (operations : List Operation) :
    let p := PromptLine.after {} operations
    Checked.after {} operations = some p ∧
      p.cursor ≤ p.text.utf8ByteSize ∧ (String.Pos.Raw.mk p.cursor).IsValid p.text ∧
      p.text = .ofList (p.sides.1 ++ p.sides.2) ∧ p.cursor = byteLength p.sides.1 ∧
      ∀ edits : List Edit, (p.after (edits.map .edit)).sides =
        edits.foldl (fun sides change => change.onSides sides) p.sides := by
  intro p
  have hplaced : p.Placed := placed_empty.after operations
  have hsplits : p.Splits p.sides := hplaced.splits_sides
  have hvalid : (String.Pos.Raw.mk p.cursor).IsValid p.text := by
    rw [hsplits.cursor, hsplits.text]
    exact Chars.isValid_byteLength _ _
  exact ⟨Checked.after_eq placed_empty operations, hvalid.le_utf8ByteSize, hvalid, hsplits.text,
    hsplits.cursor, fun edits => (hsplits.edits edits).sides_eq⟩

end PromptLine

end PocketUnix
