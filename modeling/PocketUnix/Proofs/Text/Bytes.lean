import PocketUnix.Text.Basic

/-!
# Texts in the order of their bytes

Of two characters the one with the greater code has the greater bytes in UTF-8, whatever follows
them. So texts that are in order by their characters are in order by their bytes as well.
-/

namespace PocketUnix.Text

/-- The bytes of a text in UTF-8. -/
def bytes (s : String) : List UInt8 := s.toByteArray.data.toList

theorem bytes_eq (s : String) : bytes s = s.toList.flatMap String.utf8EncodeChar := by
  rw [bytes, ← String.utf8Encode_toList, List.utf8Encode, List.toList_data_toByteArray]

/-- A first byte, which tells how many bytes there are. -/
def lead (first count v : Nat) : List UInt8 := [.ofNat (v % count + first)]

/-- One byte more at the end, for six bits. -/
def continued (f : Nat → List UInt8) (v : Nat) : List UInt8 :=
  f (v / 64) ++ [.ofNat (v % 64 + 128)]

/-- One way to write numbers up to a last one, and another for those behind it. -/
def upTo (last : Nat) (f g : Nat → List UInt8) (v : Nat) : List UInt8 :=
  if v ≤ last then f v else g v

/-- The bytes of a number are greater than those of a smaller one, whatever follows them. -/
def Ascends (limit : Nat) (f : Nat → List UInt8) : Prop :=
  ∀ v w, v < w → w < limit → ∀ rest rest', f v ++ rest < f w ++ rest'

/-- The bytes of a number are greater than those of any number that is written in the other way. -/
def Below (f g : Nat → List UInt8) : Prop := ∀ v w rest rest', f v ++ rest < g w ++ rest'

section Order

variable {last limit first count first' count' : Nat} {f g g' : Nat → List UInt8}

theorem ofNat_lt {a b : Nat} (h : a < b) (hb : b < 256) : UInt8.ofNat a < UInt8.ofNat b := by
  rw [UInt8.lt_iff_toNat_lt, UInt8.toNat_ofNat', UInt8.toNat_ofNat', Nat.mod_eq_of_lt hb,
    Nat.mod_eq_of_lt (Nat.lt_trans h hb)]
  exact h

theorem below_lead (hcount : 0 < count) (hcount' : 0 < count') (hfirst : first + count ≤ first')
    (hlimit : first' + count' ≤ 256) : Below (lead first count) (lead first' count') := by
  intro v w rest rest'
  have hv := Nat.mod_lt v hcount
  have hw := Nat.mod_lt w hcount'
  exact .rel (ofNat_lt (by omega) (by omega))

theorem Below.continued_left (h : Below f g) : Below (continued f) g := by
  intro v w rest rest'
  rw [continued, List.append_assoc]
  exact h _ _ _ _

theorem Below.continued_right (h : Below f g) : Below f (continued g) := by
  intro v w rest rest'
  rw [continued, List.append_assoc]
  exact h _ _ _ _

/-- What comes before both ways of writing comes before the two of them put together. -/
theorem Below.upTo (h : Below f g) (h' : Below f g') : Below f (upTo last g g') := by
  intro v w rest rest'
  unfold Text.upTo
  split
  · exact h v w rest rest'
  · exact h' v w rest rest'

theorem ascends_lead (h : first + count ≤ 256) : Ascends count (lead first count) := by
  intro v w hvw hw rest rest'
  rw [lead, lead, Nat.mod_eq_of_lt hw, Nat.mod_eq_of_lt (Nat.lt_trans hvw hw)]
  exact .rel (ofNat_lt (by omega) (by omega))

/-- Numbers that differ in front of their last six bits are told apart there, the others by the byte
behind. -/
theorem Ascends.continued (h : Ascends limit f) : Ascends (limit * 64) (continued f) := by
  intro v w hvw hw rest rest'
  simp only [Text.continued, List.append_assoc]
  by_cases heq : v / 64 = w / 64
  · rw [heq]
    exact List.append_left_lt (.rel (ofNat_lt (by omega) (by omega)))
  · exact h _ _ (by omega) (by omega) _ _

/-- Numbers on both sides of the last one are written in different ways, and the second way comes
later. -/
theorem Ascends.upTo (hf : Ascends (last + 1) f) (hg : Ascends limit g) (h : Below f g) :
    Ascends limit (upTo last f g) := by
  intro v w hvw hw rest rest'
  unfold Text.upTo
  by_cases hlast : w ≤ last
  · rw [if_pos hlast, if_pos (by omega)]
    exact hf v w hvw (by omega) rest rest'
  · rw [if_neg hlast]
    split
    · exact h v w rest rest'
    · exact hg v w hvw hw rest rest'

end Order

/-- A number in one byte to four. -/
def utf8 : Nat → List UInt8 :=
  upTo 0x7f (lead 0 0x80) <|
    upTo 0x7ff (continued (lead 0xc0 0x20)) <|
      upTo 0xffff (continued (continued (lead 0xe0 0x10)))
        (continued (continued (continued (lead 0xf0 0x08))))

/-- A character is written in UTF-8 as its number. -/
theorem utf8EncodeChar_eq (c : Char) : String.utf8EncodeChar c = utf8 c.toNat := by
  have hcode : c.val.toNat = c.toNat := rfl
  simp only [String.utf8EncodeChar, utf8, upTo, continued, lead, Nat.div_div_eq_div_mul, hcode]
  by_cases hone : c.toNat ≤ 0x7f
  · rw [if_pos hone, if_pos hone, Nat.mod_eq_of_lt (by omega)]
    rfl
  · rw [if_neg hone, if_neg hone]
    rfl

/-- What has more bytes begins with a greater one, whatever it is continued by. -/
theorem ascends_utf8 : Ascends (0x08 * 64 * 64 * 64) utf8 := by
  have hone : Ascends (0x7f + 1) (lead 0 0x80) := ascends_lead (by decide)
  have htwo := (ascends_lead (by decide : 0xc0 + 0x20 ≤ 256)).continued
  have hthree := (ascends_lead (by decide : 0xe0 + 0x10 ≤ 256)).continued.continued
  have hfour := (ascends_lead (by decide : 0xf0 + 0x08 ≤ 256)).continued.continued.continued
  refine hone.upTo (htwo.upTo (hthree.upTo hfour ?_) (.upTo ?_ ?_)) (.upTo ?_ (.upTo ?_ ?_))
  all_goals repeat first | apply Below.continued_right | apply Below.continued_left
  all_goals exact below_lead (by decide) (by decide) (by decide) (by decide)

/-- What begins with a greater character has greater bytes. -/
theorem utf8EncodeChar_append_lt {c d : Char} (h : c < d) (rest rest' : List UInt8) :
    String.utf8EncodeChar c ++ rest < String.utf8EncodeChar d ++ rest' := by
  have hlimit : d.toNat < 0x08 * 64 * 64 * 64 := by
    rcases d.valid with h | ⟨-, h⟩
    · exact Nat.lt_trans h (by decide)
    · exact Nat.lt_trans h (by decide)
  rw [utf8EncodeChar_eq, utf8EncodeChar_eq]
  exact ascends_utf8 _ _ h hlimit rest rest'

/-- Texts in order by their characters are in order by their bytes. -/
theorem bytes_lt {s t : String} (h : s < t) : bytes s < bytes t := by
  have hletters : s.toList < t.toList := h
  rw [bytes_eq, bytes_eq]
  generalize s.toList = cs at hletters
  generalize t.toList = ds at hletters
  induction hletters with
  | @nil d ds =>
    have hne : (d :: ds).flatMap String.utf8EncodeChar ≠ [] := by simp
    obtain ⟨b, rest, hbytes⟩ := List.exists_cons_of_ne_nil hne
    rw [hbytes]
    exact .nil
  | rel h => exact utf8EncodeChar_append_lt h _ _
  | cons _ ih => exact List.append_left_lt ih

/-- Texts are in order by their bytes just if they are by their characters. -/
theorem bytes_le_iff {s t : String} : bytes s ≤ bytes t ↔ s ≤ t := by
  constructor
  · intro hle hlt
    exact hle (bytes_lt hlt)
  · intro hle hlt
    by_cases hst : s < t
    · exact List.lt_asymm (bytes_lt hst) hlt
    · obtain rfl := String.le_antisymm hle hst
      exact List.lt_irrefl _ hlt

end PocketUnix.Text
