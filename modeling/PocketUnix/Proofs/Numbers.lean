import PocketUnix.Number.Digits

/-!
# Numbers as they are written

Which texts are read as numbers up to a limit, and that the digits of a number are read back.
-/

namespace PocketUnix.Number

variable {limit n : Nat} {s : List Char}

/-- Digits, at least one, and the number that they stand for. -/
structure Decimal (digits : List Char) (n : Nat) : Prop where
  ne_nil : digits ≠ []
  isDigit : ∀ c ∈ digits, c.isDigit = true
  value : Nat.ofDigitChars 10 digits 0 = n

/-- A number up to a limit in decimal digits, with or without a plus sign in front. -/
inductive Numeral (limit : Nat) : List Char → Nat → Prop
  | plain {digits : List Char} {n : Nat} (h : Decimal digits n) (hle : n ≤ limit) :
    Numeral limit digits n
  | signed {digits : List Char} {n : Nat} (h : Decimal digits n) (hle : n ≤ limit) :
    Numeral limit ('+' :: digits) n

theorem Decimal.not_mem (h : Decimal s n) {c : Char} (hdigit : c.isDigit = false) : c ∉ s := by
  intro hc
  rw [h.isDigit c hc] at hdigit
  cases hdigit

/-- There is nothing in a numeral but digits and a plus sign. -/
theorem Numeral.not_mem (h : Numeral limit s n) {c : Char} (hdigit : c.isDigit = false)
    (hplus : c ≠ '+') : c ∉ s := by
  cases h with
  | plain hd => exact hd.not_mem hdigit
  | signed hd => exact List.not_mem_cons_of_ne_of_not_mem hplus (hd.not_mem hdigit)

theorem Decimal.head_ne_plus {rest : List Char} (h : Decimal ('+' :: rest) n) : False :=
  absurd (h.isDigit '+' List.mem_cons_self) (by decide)

/-- Exactly the numerals are read. What is left behind a sign is read again, so that it has to be
decimal digits with no sign of its own. -/
theorem readChars?_eq_some_iff : readChars? limit s = some n ↔ Numeral limit s n := by
  have hread : ∀ digits : List Char,
      (if digits.isEmpty || !digits.all Char.isDigit then none
        else if ofDigits digits ≤ limit then some (ofDigits digits) else none) = some n ↔
        Decimal digits n ∧ n ≤ limit := by
    intro digits
    have hvalue : ofDigits digits = Nat.ofDigitChars 10 digits 0 := rfl
    rw [hvalue]
    constructor
    · intro h
      split at h
      · cases h
      · next hdigits =>
        split at h
        · next hle =>
          cases h
          simp only [Bool.or_eq_true, List.isEmpty_iff, Bool.not_eq_true', not_or,
            Bool.not_eq_false, List.all_eq_true] at hdigits
          exact ⟨⟨hdigits.1, hdigits.2, rfl⟩, hle⟩
        · cases h
    · rintro ⟨⟨hne, hdigits, rfl⟩, hle⟩
      have hall : digits.all Char.isDigit = true := List.all_eq_true.mpr hdigits
      have hempty : digits.isEmpty = false := List.isEmpty_eq_false_iff.mpr hne
      simp [hall, hempty, hle]
  unfold readChars?
  split
  · next rest =>
    rw [hread]
    constructor
    · exact fun ⟨h, hle⟩ => .signed h hle
    · intro h
      cases h with
      | plain h => exact h.head_ne_plus.elim
      | signed h hle => exact ⟨h, hle⟩
  · next hsign =>
    rw [hread]
    constructor
    · exact fun ⟨h, hle⟩ => .plain h hle
    · intro h
      cases h with
      | plain h hle => exact ⟨h, hle⟩
      | signed h => exact absurd rfl (hsign _)

/-- The digits of a number stand for it. -/
theorem decimal_digits (n : Nat) : Decimal (digits n) n where
  ne_nil := Nat.toDigits_ne_nil
  isDigit _ hc := Nat.isDigit_of_mem_toDigits (by decide) (by decide) hc
  value := Nat.ofDigitChars_toDigits (by decide) (by decide)

/-- The digits of a number are read back. -/
theorem readChars?_digits (h : n ≤ limit) : readChars? limit (digits n) = some n :=
  readChars?_eq_some_iff.mpr (.plain (decimal_digits n) h)

end PocketUnix.Number
