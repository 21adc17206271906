import PocketUnix.Text.Offset

/-!
# Slices at byte offsets

A text can be cut at a byte offset if no character lies across it. An offset that falls inside a
character, or behind the end, is first moved back to where the text can be cut.
-/

namespace PocketUnix.Chars

/-- The parts of a text at an offset: what is in front of it ends where the character begins that
the offset falls into. -/
structure CutAt (offset : Nat) (s before after : List Char) : Prop where
  append : before ++ after = s
  le : byteLength before ≤ offset
  next : ∀ c ∈ after.head?, offset < byteLength before + c.utf8Size

/-- The text is cut where its characters up to the offset end. -/
theorem cutAt_cut (offset : Nat) (s : List Char) :
    CutAt offset s (cut offset s).1 (cut offset s).2 where
  append := cut_append offset s
  le := byteLength_cut_le offset s
  next := by
    induction s generalizing offset with
    | nil => simp [cut]
    | cons c s ih =>
      by_cases hc : c.utf8Size ≤ offset
      · intro d hd
        rw [cut, if_pos hc] at hd ⊢
        have hrest := ih (offset - c.utf8Size) d hd
        simp only [byteLength_cons]
        omega
      · rw [cut, if_neg hc]
        simp
        omega

/-- A text is cut at an offset in one way only. -/
theorem CutAt.cut_eq {offset : Nat} {s before after : List Char}
    (h : CutAt offset s before after) : cut offset s = (before, after) := by
  induction before generalizing offset s with
  | nil =>
    obtain rfl := h.append
    cases after with
    | nil => rfl
    | cons c after =>
      have hnext := h.next c rfl
      rw [List.nil_append, cut, if_neg (by simpa using hnext)]
  | cons c before ih =>
    obtain rfl := h.append
    have hle := h.le
    rw [byteLength_cons] at hle
    have hrest : CutAt (offset - c.utf8Size) (before ++ after) before after := by
      refine ⟨rfl, by omega, fun d hd => ?_⟩
      have hnext := h.next d hd
      rw [byteLength_cons] at hnext
      omega
    rw [List.cons_append, cut, if_pos (by omega), ih hrest]

variable {s t : List Char}

/-- Both parts of a text at an offset, if the text can be cut there. -/
def slices? (offset : Nat) (s : List Char) : Option (List Char × List Char) :=
  if byteLength (cut offset s).1 = offset then some (cut offset s) else none

/-- The text up to an offset. -/
def upTo? (offset : Nat) (s : List Char) : Option (List Char) := (slices? offset s).map (·.1)

/-- The text from an offset on. -/
def from? (offset : Nat) (s : List Char) : Option (List Char) := (slices? offset s).map (·.2)

theorem slices?_append (s t : List Char) : slices? (byteLength s) (s ++ t) = some (s, t) := by
  simp [slices?, cut_byteLength_append]

@[simp] theorem upTo?_append (s t : List Char) : upTo? (byteLength s) (s ++ t) = some s := by
  simp [upTo?, slices?_append]

@[simp] theorem from?_append (s t : List Char) : from? (byteLength s) (s ++ t) = some t := by
  simp [from?, slices?_append]

/-- Behind its start a text can be cut. -/
theorem from?_of_prefix (h : s <+: t) : from? (byteLength s) t = some (t.drop s.length) := by
  obtain ⟨rest, rfl⟩ := h
  rw [from?_append, List.drop_left]

theorem upTo?_of_prefix (h : s <+: t) : upTo? (byteLength s) t = some s := by
  obtain ⟨rest, rfl⟩ := h
  exact upTo?_append s rest

theorem byteLength_le (h : s <+: t) : byteLength s ≤ byteLength t := by
  obtain ⟨rest, rfl⟩ := h
  rw [byteLength_append]
  exact Nat.le_add_right _ _

/-- A longer start takes more bytes. -/
theorem byteLength_lt_iff {a b : List Char} (ha : a <+: t) (hb : b <+: t) :
    byteLength a < byteLength b ↔ a.length < b.length := by
  have hlt : ∀ {a b : List Char}, a <+: t → b <+: t → a.length < b.length →
      byteLength a < byteLength b := by
    intro a b ha hb hlength
    obtain ⟨rest, rfl⟩ := List.prefix_of_prefix_length_le ha hb (Nat.le_of_lt hlength)
    cases rest with
    | nil => simp at hlength
    | cons c rest =>
      have hsize := c.utf8Size_pos
      simp only [byteLength_append, byteLength_cons]
      omega
  refine ⟨fun hbytes => ?_, hlt ha hb⟩
  rcases Nat.lt_trichotomy a.length b.length with h | h | h
  · exact h
  · have hsame : a = b := (List.prefix_of_prefix_length_le ha hb (Nat.le_of_eq h)).eq_of_length h
    rw [hsame] at hbytes
    omega
  · have hless := hlt hb ha h
    omega

theorem byteLength_eq (s : List Char) : byteLength s = (String.ofList s).utf8ByteSize := by
  induction s with
  | nil => rfl
  | cons c s ih =>
    rw [byteLength_cons, ih, String.ofList_cons, String.utf8ByteSize_append,
      String.utf8ByteSize_singleton]

/-- The end of a part is a position of the text, as text is encoded in bytes. -/
theorem isValid_byteLength (s t : List Char) :
    (String.Pos.Raw.mk (byteLength s)).IsValid (.ofList (s ++ t)) := by
  refine String.Pos.Raw.isValid_iff_exists_append.mpr ⟨.ofList s, .ofList t, ?_, ?_⟩
  · exact String.ofList_append
  · rw [byteLength_eq]
    rfl

end PocketUnix.Chars
