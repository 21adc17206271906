/-!
# Byte offsets

A cursor counts the bytes of the UTF-8 form in front of it. `cut` divides a text at an offset
and moves an offset that falls inside a character back to its start.
-/

namespace PocketUnix.Chars

def byteLength : List Char → Nat
  | [] => 0
  | c :: cs => c.utf8Size + byteLength cs

@[simp] theorem byteLength_nil : byteLength [] = 0 := rfl

@[simp] theorem byteLength_cons (c : Char) (s : List Char) :
    byteLength (c :: s) = c.utf8Size + byteLength s := rfl

@[simp] theorem byteLength_append (s t : List Char) :
    byteLength (s ++ t) = byteLength s + byteLength t := by
  induction s with
  | nil => simp
  | cons c s ih => simp [ih, Nat.add_assoc]

/-- What stands before and after the offset. -/
def cut : Nat → List Char → List Char × List Char
  | _, [] => ([], [])
  | offset, c :: cs =>
    if c.utf8Size ≤ offset then
      let (before, after) := cut (offset - c.utf8Size) cs
      (c :: before, after)
    else ([], c :: cs)

theorem cut_append (offset : Nat) (s : List Char) : (cut offset s).1 ++ (cut offset s).2 = s := by
  induction s generalizing offset with
  | nil => rfl
  | cons c cs ih =>
    simp only [cut]
    split
    · simpa using ih (offset - c.utf8Size)
    · rfl

@[simp] theorem cut_zero (s : List Char) : cut 0 s = ([], s) := by
  cases s with
  | nil => rfl
  | cons c s =>
    have : ¬c.utf8Size ≤ 0 := Nat.not_le.mpr c.utf8Size_pos
    simp [cut, this]

/-- The boundary between two texts is where both of them come back. -/
theorem cut_byteLength_append (s t : List Char) : cut (byteLength s) (s ++ t) = (s, t) := by
  induction s with
  | nil => simp
  | cons c s ih => simp [cut, ih]

/-- No cut lies behind its offset. -/
theorem byteLength_cut_le (offset : Nat) (s : List Char) :
    byteLength (cut offset s).1 ≤ offset := by
  induction s generalizing offset with
  | nil => simp [cut]
  | cons c s ih =>
    simp only [cut]
    split
    · have := ih (offset - c.utf8Size)
      simp only [byteLength_cons]
      omega
    · simp

end PocketUnix.Chars

namespace PocketUnix.Text

def byteLength (s : String) : Nat := Chars.byteLength s.toList

end PocketUnix.Text
