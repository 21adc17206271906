import Mathlib.Data.List.Basic
import PocketUnix.Proofs.Permissions
import PocketUnix.Proofs.Text.Ends
import PocketUnix.Proofs.Text.Pieces

/-!
# What a mode does

A mode is up to four octal digits or clauses between commas. Whether a text is one can be seen from
the text alone. The clauses work from the left to the right, and each bit is set, cleared or left
alone by each of them, so that a mode that is applied again has nothing left to do.
-/

namespace PocketUnix.Permissions

/-- What a mode makes of a permission text, if it is one. -/
def changed? (mode permissions : String) : Option String :=
  (Mode.read? mode).map (·.apply permissions)

/-- Up to four octal digits. -/
def IsOctal (mode : String) : Prop :=
  mode ≠ "" ∧ mode.toList.length ≤ 4 ∧ ∀ c ∈ mode.toList, '0' ≤ c ∧ c ≤ '7'

/-- The text of a clause in three parts: whom it is about, what it does, and to which rights. -/
structure Spelled (clause : String) (who : List Char) (change : Char) (what : List Char) :
    Prop where
  letters : clause.toList = who ++ change :: what
  who : ∀ c ∈ who, c ∈ ['u', 'g', 'o', 'a']
  change : change ∈ ['+', '-', '=']
  what : ∀ c ∈ what, c ∈ ['r', 'w', 'x', 'X']

/-- Clauses between commas. -/
def IsSymbolic (mode : String) : Prop :=
  ∀ clause ∈ Text.splitOn mode ',', ∃ who change what, Spelled clause who change what

/-- The right at a place of a triad. -/
def granted (permissions : String) (triad place : Nat) : Bool :=
  (bits permissions).getD (3 * triad + place) false

def triadLetter (triad : Nat) : Char := if triad = 0 then 'u' else if triad = 1 then 'g' else 'o'

/-- All triads are meant if no letter stands there, or the letter for all. -/
def NamesTriad (who : List Char) (triad : Nat) : Prop :=
  who = [] ∨ 'a' ∈ who ∨ triadLetter triad ∈ who

def NamesRight (what : List Char) (place : Nat) : Prop :=
  rightLetter place ∈ what ∨ place = 2 ∧ 'X' ∈ what

/-- What a clause makes of a permission text, right by right. -/
structure Alters (who : List Char) (change : Char) (what : List Char) (old new : String) :
    Prop where
  add : change = '+' → ∀ triad < 3, ∀ place < 3, NamesTriad who triad → NamesRight what place →
    granted new triad place = true
  remove : change = '-' → ∀ triad < 3, ∀ place < 3, NamesTriad who triad →
    NamesRight what place → granted new triad place = false
  exact : change = '=' → ∀ triad < 3, ∀ place < 3, NamesTriad who triad →
    (granted new triad place = true ↔ NamesRight what place)
  keep : ∀ triad < 3, ∀ place < 3,
    ¬NamesTriad who triad ∨ change ≠ '=' ∧ ¬NamesRight what place →
    granted new triad place = granted old triad place

variable {s : List Char} {clause mode p q : String} {who what : List Char} {change : Char}
  {c : Clause} {b : List Bool}

/-- The clause does what its letters say. -/
structure Clause.Reads (c : Clause) (who : List Char) (change : Char) (what : List Char) :
    Prop where
  triads : ∀ triad < 3, triad ∈ c.triads ↔ NamesTriad who triad
  change : change? change = some c.change
  places : ∀ place < 3, place ∈ c.places ↔ NamesRight what place

theorem exists_change?_iff : (∃ old, change? change = some old) ↔ change ∈ ['+', '-', '='] := by
  unfold change?
  split <;> simp_all

/-- The letters that say whom a clause is about are those of the three triads and the one for all.
-/
theorem exists_triads?_iff :
    (∃ triads, triads? who = some triads) ↔ ∀ d ∈ who, d ∈ ['u', 'g', 'o', 'a'] := by
  have hall : who.all "ugoa".toList.contains = true ↔ ∀ d ∈ who, d ∈ ['u', 'g', 'o', 'a'] := by
    simp
  rw [← hall]
  unfold triads?
  cases who.all "ugoa".toList.contains with
  | false => simp
  | true =>
    simp only [Bool.not_true, Bool.false_eq_true, if_false, iff_true]
    split
    · exact ⟨_, rfl⟩
    · exact ⟨_, rfl⟩

/-- The triads that are read are those that the letters name. -/
theorem mem_triads?_iff {triads : List Nat} (h : triads? who = some triads) :
    ∀ triad < 3, triad ∈ triads ↔ NamesTriad who triad := by
  have hletters := exists_triads?_iff.mp ⟨triads, h⟩
  have hall : (!who.all "ugoa".toList.contains) = false := by simpa using hletters
  simp only [triads?, hall, Bool.false_eq_true, if_false] at h
  intro triad htriad
  by_cases hevery : (who.isEmpty || who.contains 'a') = true
  · rw [if_pos hevery, Option.some.injEq] at h
    have hnames : NamesTriad who triad := by
      rcases Bool.or_eq_true_iff.mp hevery with hempty | ha
      · exact .inl (List.isEmpty_iff.mp hempty)
      · exact .inr (.inl (by simpa using ha))
    simp only [← h, hnames, iff_true, List.mem_cons]
    omega
  · rw [if_neg hevery, Option.some.injEq] at h
    obtain ⟨hne, ha⟩ : who ≠ [] ∧ 'a' ∉ who := by simpa using hevery
    rw [← h, List.mem_map]
    constructor
    · rintro ⟨d, hd, rfl⟩
      have hd' := hletters d hd
      simp only [List.mem_cons, List.not_mem_nil, or_false] at hd'
      refine .inr (.inr ?_)
      rcases hd' with rfl | rfl | rfl | rfl
      · exact hd
      · exact hd
      · exact hd
      · exact absurd hd ha
    · rintro (hnil | ha' | hd)
      · exact absurd hnil hne
      · exact absurd ha' ha
      · refine ⟨_, hd, ?_⟩
        obtain rfl | rfl | rfl : triad = 0 ∨ triad = 1 ∨ triad = 2 := by omega
        all_goals rfl

theorem exists_places?_iff :
    (∃ places, places? what = some places) ↔ ∀ d ∈ what, d ∈ ['r', 'w', 'x', 'X'] := by
  have hall : what.all "rwxX".toList.contains = true ↔ ∀ d ∈ what, d ∈ ['r', 'w', 'x', 'X'] := by
    simp
  rw [← hall]
  unfold places?
  cases what.all "rwxX".toList.contains <;> simp

/-- The rights that are read are those that the letters name. -/
theorem mem_places?_iff {places : List Nat} (h : places? what = some places) :
    ∀ place < 3, place ∈ places ↔ NamesRight what place := by
  have hletters := exists_places?_iff.mp ⟨places, h⟩
  have hall : (!what.all "rwxX".toList.contains) = false := by simpa using hletters
  simp only [places?, hall, Bool.false_eq_true, if_false, Option.some.injEq] at h
  intro place hplace
  rw [← h, List.mem_map]
  constructor
  · rintro ⟨d, hd, rfl⟩
    have hd' := hletters d hd
    simp only [List.mem_cons, List.not_mem_nil, or_false] at hd'
    rcases hd' with rfl | rfl | rfl | rfl
    · exact .inl hd
    · exact .inl hd
    · exact .inl hd
    · exact .inr ⟨rfl, hd⟩
  · rintro (hd | ⟨rfl, hd⟩)
    · refine ⟨_, hd, ?_⟩
      obtain rfl | rfl | rfl : place = 0 ∨ place = 1 ∨ place = 2 := by omega
      all_goals rfl
    · exact ⟨_, hd, rfl⟩

/-- A clause is cut at the first letter for a change. -/
theorem clause?_append {old : Change} (hwho : ∀ d ∈ who, change? d = none)
    (hchange : change? change = some old) :
    clause? (who ++ change :: what) =
      (triads? who).bind fun triads => (places? what).map fun places => ⟨triads, old, places⟩ := by
  have hfree : ∀ d ∈ who, (change? d).isSome = false := fun d hd => by simp [hwho d hd]
  have hcut : Chars.cutWhere? (fun d => (change? d).isSome) (who ++ change :: what) =
      some (who, what) := Chars.cutWhere?_append (by simp [hchange]) hfree
  have htake : (who ++ change :: what).takeWhile (fun d => !(change? d).isSome) = who :=
    Chars.takeWhile_run (fun d hd => by simp [hfree d hd]) (by simp [hchange])
  unfold clause?
  simp only [hcut, htake]
  simp [hchange]
  cases triads? who <;> cases places? what <;> rfl

theorem change?_of_mem_who {d : Char} (h : d ∈ ['u', 'g', 'o', 'a']) : change? d = none := by
  simp only [List.mem_cons, List.not_mem_nil, or_false] at h
  rcases h with rfl | rfl | rfl | rfl
  all_goals rfl

/-- What is spelled as a clause is read, and read as it is meant. -/
theorem Spelled.exists_clause? (h : Spelled clause who change what) :
    ∃ c, clause? clause.toList = some c ∧ c.Reads who change what := by
  obtain ⟨old, hold⟩ := exists_change?_iff.mpr h.change
  obtain ⟨triads, htriads⟩ := exists_triads?_iff.mpr h.who
  obtain ⟨places, hplaces⟩ := exists_places?_iff.mpr h.what
  refine ⟨⟨triads, old, places⟩, ?_, mem_triads?_iff htriads, hold, mem_places?_iff hplaces⟩
  rw [h.letters, clause?_append (fun d hd => change?_of_mem_who (h.who d hd)) hold, htriads,
    hplaces]
  rfl

/-- A text has no letter for a change, or a first one. -/
theorem unchanging_or_split (s : List Char) :
    (∀ d ∈ s, change? d = none) ∨ ∃ who change what old, s = who ++ change :: what ∧
      (∀ d ∈ who, change? d = none) ∧ change? change = some old := by
  induction s with
  | nil => exact .inl (by simp)
  | cons d s ih =>
    cases hd : change? d with
    | some old => exact .inr ⟨[], d, s, old, rfl, by simp, hd⟩
    | none =>
      rcases ih with hfree | ⟨who, change, what, old, rfl, hwho, hold⟩
      · exact .inl (List.forall_mem_cons.mpr ⟨hd, hfree⟩)
      · exact .inr ⟨d :: who, change, what, old, rfl, List.forall_mem_cons.mpr ⟨hd, hwho⟩, hold⟩

/-- What is read as a clause is spelled as one. -/
theorem exists_spelled_of_clause? (h : clause? clause.toList = some c) :
    ∃ who change what, Spelled clause who change what := by
  rcases unchanging_or_split clause.toList with hfree | ⟨who, change, what, old, hs, hwho, hold⟩
  · have hcut := Chars.cutWhere?_eq_none (p := fun d => (change? d).isSome) (s := clause.toList)
      fun d hd => by simp [hfree d hd]
    unfold clause? at h
    simp [hcut] at h
  · rw [hs, clause?_append hwho hold] at h
    obtain ⟨triads, htriads, hplaces⟩ := Option.bind_eq_some_iff.mp h
    obtain ⟨places, hplaces, -⟩ := Option.map_eq_some_iff.mp hplaces
    exact ⟨who, change, what, hs, exists_triads?_iff.mp ⟨triads, htriads⟩,
      exists_change?_iff.mp ⟨old, hold⟩, exists_places?_iff.mp ⟨places, hplaces⟩⟩

/-- The last three digits, behind zeros for those that are missing. -/
def lastDigits (mode : List Char) : List Nat :=
  let digits := mode.map fun c => c.toNat - '0'.toNat
  let last := digits.drop (digits.length - 3)
  List.replicate (3 - last.length) 0 ++ last

/-- Octal digits are read as such, the last three of them. -/
theorem read?_of_isOctal (h : IsOctal mode) :
    Mode.read? mode = some (.octal (lastDigits mode.toList)) := by
  obtain ⟨hne, hlength, hdigits⟩ := h
  have hall : mode.toList.all isOctal = true := by
    simpa [isOctal] using hdigits
  simp [Mode.read?, lastDigits, hne, hlength, hall]

/-- Anything else is read as clauses between commas. -/
theorem read?_of_not_isOctal (h : ¬IsOctal mode) :
    Mode.read? mode = ((mode.toList.splitOn ',').mapM clause?).map .symbolic := by
  have hno : ¬(!mode.toList.isEmpty && decide (mode.toList.length ≤ 4) &&
      mode.toList.all isOctal) = true := by
    intro hall
    refine h ⟨?_, ?_⟩ <;> simp_all [isOctal]
  simp only [Mode.read?, hno]
  rfl

theorem isSome_mapM_iff {α β : Type} {f : α → Option β} {l : List α} :
    (l.mapM f).isSome = true ↔ ∀ a ∈ l, (f a).isSome = true := by
  induction l with
  | nil => simp
  | cons a l ih =>
    rw [List.mapM_cons, List.forall_mem_cons, ← ih]
    cases f a <;> cases l.mapM f <;> simp

theorem Spelled.not_isOctal (h : Spelled mode who change what) : ¬IsOctal mode := by
  intro hoctal
  have hdigit := hoctal.2.2 change (by simp [h.letters])
  have hchange := h.change
  simp only [List.mem_cons, List.not_mem_nil, or_false] at hchange
  rcases hchange with rfl | rfl | rfl
  all_goals exact absurd hdigit (by decide)

theorem Spelled.comma_not_mem (h : Spelled clause who change what) : ',' ∉ clause.toList := by
  rw [h.letters, List.mem_append, List.mem_cons]
  rintro (hmem | hmem | hmem)
  · exact absurd (h.who _ hmem) (by decide)
  · exact absurd (hmem ▸ h.change) (by decide)
  · exact absurd (h.what _ hmem) (by decide)

theorem IsSymbolic.not_isOctal (h : IsSymbolic mode) : ¬IsOctal mode := by
  intro hoctal
  have hcomma : ',' ∉ mode.toList := fun hmem => absurd (hoctal.2.2 _ hmem) (by decide)
  obtain ⟨who, change, what, hspelled⟩ := h mode (by simp [Text.splitOn_of_not_mem hcomma])
  exact hspelled.not_isOctal hoctal

/-- Exactly the texts of clauses are read as clauses. -/
theorem isSome_clause?_iff (s : List Char) :
    (clause? s).isSome = true ↔ ∃ who change what, Spelled (.ofList s) who change what := by
  constructor
  · intro h
    obtain ⟨c, hc⟩ := Option.isSome_iff_exists.mp h
    exact exists_spelled_of_clause? (c := c) (by rwa [String.toList_ofList])
  · rintro ⟨who, change, what, hspelled⟩
    obtain ⟨c, hc, -⟩ := hspelled.exists_clause?
    rw [String.toList_ofList] at hc
    rw [hc]
    rfl

theorem isSymbolic_iff :
    IsSymbolic mode ↔ ((mode.toList.splitOn ',').mapM clause?).isSome = true := by
  simp only [isSome_mapM_iff, isSome_clause?_iff, IsSymbolic, Text.splitOn, List.forall_mem_map]

/-- The two kinds of modes are all that is read, whatever they are applied to. -/
theorem isSome_changed?_iff : (changed? mode p).isSome = true ↔ IsOctal mode ∨ IsSymbolic mode := by
  rw [changed?, Option.isSome_map]
  by_cases h : IsOctal mode
  · simp [read?_of_isOctal h, h]
  · simp only [read?_of_not_isOctal h, Option.isSome_map, ← isSymbolic_iff, h, false_or]

/-- What a clause makes of the bit with a number. -/
def Clause.at (c : Clause) (k : Nat) (old : Bool) : Bool :=
  if !c.triads.contains (k / 3) then old
  else if c.places.contains (k % 3) then c.change != .remove
  else c.change != .exact && old

theorem Clause.apply_eq (c : Clause) (b : List Bool) : c.apply b = b.mapIdx c.at := rfl

/-- The nine bits are read back from their text. -/
theorem bits_render (letter : Char) (h : b.length = 9) : bits (render letter b) = b := by
  have hplaces : ((render letter b).toList.drop 1).take 9 =
      b.mapIdx fun k on => if on then rightLetter (k % 3) else '-' := by
    rw [toList_render, List.drop_one, List.tail_cons, List.take_of_length_le (by simp [h])]
  have hletter : ∀ place, rightLetter place ≠ '-' := by
    intro place
    unfold rightLetter
    split
    · decide
    · split
      · decide
      · decide
  simp only [bits, hplaces, List.length_mapIdx, h, Nat.sub_self, List.replicate_zero,
    List.append_nil]
  refine List.ext_getElem (by simp) fun k hk hk' => ?_
  simp only [List.getElem_map, List.getElem_mapIdx]
  cases b[k] with
  | true => simpa using hletter (k % 3)
  | false => rfl

/-- Clauses work on each bit by itself. -/
theorem foldl_apply_eq (clauses : List Clause) (b : List Bool) :
    clauses.foldl (fun b c => c.apply b) b =
      b.mapIdx fun k old => clauses.foldl (fun old c => c.at k old) old := by
  induction clauses generalizing b with
  | nil => exact List.ext_getElem (by simp) fun k hk hk' => by simp
  | cons c clauses ih =>
    rw [List.foldl_cons, ih, Clause.apply_eq, List.mapIdx_mapIdx]
    rfl

/-- A clause sets a bit, whatever it was, or leaves it alone, and so do clauses one after the
other. -/
theorem at_constant_or_self (clauses : List Clause) (k : Nat) :
    (∀ old, clauses.foldl (fun old c => c.at k old) old = old) ∨
      ∃ new, ∀ old, clauses.foldl (fun old c => c.at k old) old = new := by
  induction clauses with
  | nil => exact .inl fun old => rfl
  | cons c clauses ih =>
    simp only [List.foldl_cons]
    have hc : (∀ old, c.at k old = old) ∨ ∃ new, ∀ old, c.at k old = new := by
      unfold Clause.at
      split
      · exact .inl fun old => rfl
      · split
        · exact .inr ⟨_, fun old => rfl⟩
        · cases c.change with
          | exact => exact .inr ⟨false, fun old => rfl⟩
          | add => exact .inl fun old => rfl
          | remove => exact .inl fun old => rfl
    rcases hc with hself | ⟨new, hnew⟩
    · simpa only [hself] using ih
    · exact .inr ⟨_, fun old => by rw [hnew]⟩

/-- Clauses that have been applied have nothing left to do. -/
theorem foldl_apply_again (clauses : List Clause) (b : List Bool) :
    clauses.foldl (fun b c => c.apply b) (clauses.foldl (fun b c => c.apply b) b) =
      clauses.foldl (fun b c => c.apply b) b := by
  simp only [foldl_apply_eq, List.mapIdx_mapIdx]
  congr 1
  funext k old
  rcases at_constant_or_self clauses k with hself | ⟨new, hnew⟩
  · simp only [Function.comp_apply, hself]
  · simp only [Function.comp_apply, hnew]

/-- A mode has nothing left to do a second time. -/
theorem Mode.apply_again (m : Mode) (p : String) : m.apply (m.apply p) = m.apply p := by
  cases m with
  | octal digits =>
    change render (kindLetter (render (kindLetter p) _)) _ = render (kindLetter p) _
    rw [kindLetter_render]
  | symbolic clauses =>
    have hlength : (clauses.foldl (fun b c => c.apply b) (bits p)).length = 9 := by
      rw [length_foldl_apply, length_bits]
    simp only [Mode.apply, kindLetter_render, bits_render _ hlength, foldl_apply_again]

theorem toNat_digit_lt {d : Char} (h : d ≤ '7') : d.toNat - '0'.toNat < 8 := by
  have hle : d.toNat ≤ 55 := h
  have hzero : '0'.toNat = 48 := rfl
  omega

/-- Three octal digits say nine bits of a number, whatever stands in front of them. -/
theorem bitsOfDigits_three (w x : Nat) {y z : Nat} (hy : y < 8) (hz : z < 8) :
    bitsOfDigits [x, y, z] =
      (List.range 9).map fun k => (8 * (8 * (8 * w + x) + y) + z).testBit (8 - k) := by
  have hbit : ∀ n k : Nat, n.testBit k = (n / 2 ^ k % 2 == 1) := fun n k => by
    rw [Nat.testBit_eq_decide_div_mod_eq, beq_eq_decide]
  simp only [bitsOfDigits, List.flatMap_cons, List.flatMap_nil, List.append_nil, List.cons_append,
    List.nil_append, List.range, List.range.loop, List.map_cons, List.map_nil, hbit,
    List.cons.injEq, and_true, Nat.reduceSub, Nat.reducePow, Nat.div_one]
  refine ⟨?_, ?_, ?_, ?_, ?_, ?_, ?_, ?_, ?_⟩
  all_goals
    congr 1
    omega

/-- The last three digits say the last nine bits of the number. -/
theorem bitsOfDigits_lastDigits (h : IsOctal mode) :
    bitsOfDigits (lastDigits mode.toList) =
      (List.range 9).map fun k => (Nat.ofDigitChars 8 mode.toList 0).testBit (8 - k) := by
  obtain ⟨hne, hlength, hdigits⟩ := h
  have hsmall : ∀ d ∈ mode.toList, d.toNat - '0'.toNat < 8 :=
    fun d hd => toNat_digit_lt (hdigits d hd).2
  have hne' : mode.toList ≠ [] := by simpa using hne
  generalize mode.toList = cs at hlength hsmall hne'
  match cs, hlength with
  | [], _ => exact absurd rfl hne'
  | [z], _ =>
    have hz := hsmall z (by simp)
    simpa [lastDigits, Nat.ofDigitChars_cons] using bitsOfDigits_three 0 0 (by decide : 0 < 8) hz
  | [y, z], _ =>
    have hy := hsmall y (by simp)
    have hz := hsmall z (by simp)
    simpa [lastDigits, Nat.ofDigitChars_cons] using bitsOfDigits_three 0 0 hy hz
  | [x, y, z], _ =>
    have hy := hsmall y (by simp)
    have hz := hsmall z (by simp)
    simpa [lastDigits, Nat.ofDigitChars_cons] using bitsOfDigits_three 0 _ hy hz
  | [w, x, y, z], _ =>
    have hy := hsmall y (by simp)
    have hz := hsmall z (by simp)
    simpa [lastDigits, Nat.ofDigitChars_cons] using bitsOfDigits_three _ _ hy hz

theorem changed?_of_clause? (clause : String) (h : clause? clause.toList = some c) (p : String) :
    changed? clause p = some (render (kindLetter p) (c.apply (bits p))) := by
  obtain ⟨who, change, what, hspelled⟩ := exists_spelled_of_clause? h
  have hsplit := List.splitOn_eq_singleton hspelled.comma_not_mem
  rw [changed?, read?_of_not_isOctal hspelled.not_isOctal, hsplit]
  simp [h]
  rfl

/-- Clauses do what each of them does, one after the other. -/
theorem foldlM_changed? {pieces : List (List Char)} {clauses : List Clause}
    (h : pieces.mapM clause? = some clauses) (letter : Char) (hb : b.length = 9) :
    (pieces.map String.ofList).foldlM (fun r clause => changed? clause r) (render letter b) =
      some (render letter (clauses.foldl (fun b c => c.apply b) b)) := by
  induction pieces generalizing b clauses with
  | nil =>
    obtain rfl : clauses = [] := by simpa using h.symm
    rfl
  | cons piece pieces ih =>
    rw [List.mapM_cons] at h
    obtain ⟨c, hc, h⟩ := Option.bind_eq_some_iff.mp h
    obtain ⟨rest, hrest, h⟩ := Option.bind_eq_some_iff.mp h
    obtain rfl : clauses = c :: rest := by simpa using h.symm
    have hstep := changed?_of_clause? (.ofList piece) (by simpa using hc) (render letter b)
    rw [kindLetter_render, bits_render letter hb] at hstep
    rw [List.map_cons, List.foldlM_cons, hstep]
    exact ih hrest (by simpa using hb)

/-- The same of the text of a mode. Its first clause makes a text with nine places of whatever it is
given, and the others find one. -/
theorem foldlM_splitOn {m : Mode} (h : IsSymbolic mode) (hm : Mode.read? mode = some m)
    (p : String) :
    (Text.splitOn mode ',').foldlM (fun r clause => changed? clause r) p = some (m.apply p) := by
  rw [read?_of_not_isOctal h.not_isOctal] at hm
  obtain ⟨clauses, hclauses, rfl⟩ := Option.map_eq_some_iff.mp hm
  rw [Text.splitOn]
  cases hpieces : mode.toList.splitOn ',' with
  | nil => exact absurd hpieces (List.splitOn_ne_nil ',' mode.toList)
  | cons piece pieces =>
    rw [hpieces, List.mapM_cons] at hclauses
    obtain ⟨c, hc, hclauses⟩ := Option.bind_eq_some_iff.mp hclauses
    obtain ⟨rest, hrest, hclauses⟩ := Option.bind_eq_some_iff.mp hclauses
    obtain rfl : clauses = c :: rest := by simpa using hclauses.symm
    have hstep := changed?_of_clause? (.ofList piece) (by simpa using hc) p
    rw [List.map_cons, List.foldlM_cons, hstep]
    exact foldlM_changed? hrest (kindLetter p) (by simp [length_bits])

/-- What a clause does to a right, it does to its bit. -/
theorem granted_render_apply (letter : Char) (c : Clause) {triad place : Nat} (htriad : triad < 3)
    (hplace : place < 3) :
    granted (render letter (c.apply (bits p))) triad place =
      c.at (3 * triad + place) (granted p triad place) := by
  have hlength := length_bits p
  have hk : 3 * triad + place < (bits p).length := by omega
  rw [granted, granted, bits_render letter (by simp [hlength]), Clause.apply_eq,
    List.getD_eq_getElem?_getD, List.getD_eq_getElem?_getD, List.getElem?_mapIdx,
    List.getElem?_eq_getElem hk]
  rfl

theorem eq_of_change?_exact (h : change? change = some .exact) : change = '=' := by
  unfold change? at h
  split at h
  · cases h
  · cases h
  · rfl
  · cases h

/-- A clause alters a permission text as its letters say, by cases on the change and on whether the
letters name the bit. -/
theorem Clause.Reads.alters (h : c.Reads who change what) (letter : Char) :
    Alters who change what p (render letter (c.apply (bits p))) := by
  have hbit : ∀ triad < 3, ∀ place < 3,
      granted (render letter (c.apply (bits p))) triad place =
        if triad ∈ c.triads then
          if place ∈ c.places then c.change != .remove
          else c.change != .exact && granted p triad place
        else granted p triad place := by
    intro triad htriad place hplace
    have hdiv : (3 * triad + place) / 3 = triad := by omega
    have hmod : (3 * triad + place) % 3 = place := by omega
    rw [granted_render_apply letter c htriad hplace]
    simp [Clause.at, hdiv, hmod]
  refine ⟨?_, ?_, ?_, ?_⟩
  · rintro rfl triad ht place hk hn hw
    have hadd : c.change = .add := (Option.some.inj h.change).symm
    rw [hbit triad ht place hk, if_pos ((h.triads triad ht).mpr hn),
      if_pos ((h.places place hk).mpr hw), hadd]
    rfl
  · rintro rfl triad ht place hk hn hw
    have hremove : c.change = .remove := (Option.some.inj h.change).symm
    rw [hbit triad ht place hk, if_pos ((h.triads triad ht).mpr hn),
      if_pos ((h.places place hk).mpr hw), hremove]
    rfl
  · rintro rfl triad ht place hk hn
    have hexact : c.change = .exact := (Option.some.inj h.change).symm
    rw [hbit triad ht place hk, if_pos ((h.triads triad ht).mpr hn), hexact, ← h.places place hk]
    by_cases hw : place ∈ c.places
    · simp [hw]
    · simp [hw]
  · rintro triad ht place hk (hn | ⟨hne, hw⟩)
    · rw [hbit triad ht place hk, if_neg (mt (h.triads triad ht).mp hn)]
    · have hexact : c.change ≠ .exact := by
        intro hexact
        have hchange := h.change
        rw [hexact] at hchange
        exact hne (eq_of_change?_exact hchange)
      rw [hbit triad ht place hk, if_neg (mt (h.places place hk).mp hw)]
      split
      · simp [hexact]
      · rfl

/-- Whether a text is a mode does not depend on what it is applied to. A mode keeps the letter of
the kind and leaves nine places, and has nothing left to do a second time. Octal digits say all nine
bits, and clauses do what each of them does, one after the other. -/
theorem changed_by_mode (mode : String) :
    (∀ p, (changed? mode p).isSome = true ↔ IsOctal mode ∨ IsSymbolic mode) ∧
      ∀ p q, changed? mode p = some q →
        Rendered q ∧ kindLetter q = p.toList.headD '-' ∧ changed? mode q = some q ∧
          (IsOctal mode → bits q =
            (List.range 9).map fun k => (Nat.ofDigitChars 8 mode.toList 0).testBit (8 - k)) ∧
          (IsSymbolic mode →
            (Text.splitOn mode ',').foldlM (fun r clause => changed? clause r) p = some q) ∧
          ∀ who change what, Spelled mode who change what → Alters who change what p q := by
  refine ⟨fun p => isSome_changed?_iff, fun p q hq => ?_⟩
  obtain ⟨m, hm, rfl⟩ := Option.map_eq_some_iff.mp hq
  refine ⟨Mode.rendered_apply hm p, Mode.kindLetter_apply m p, ?_, fun h => ?_,
    fun h => foldlM_splitOn h hm p, fun who change what h => ?_⟩
  · rw [changed?, hm, Option.map_some, Mode.apply_again]
  · rw [read?_of_isOctal h, Option.some.injEq] at hm
    have hbits := bitsOfDigits_lastDigits h
    subst hm
    have hlength : (bitsOfDigits (lastDigits mode.toList)).length = 9 := by
      rw [hbits]
      simp
    exact (bits_render (kindLetter p) hlength).trans hbits
  · obtain ⟨c, hc, hreads⟩ := h.exists_clause?
    have hp := changed?_of_clause? _ hc p
    rw [hq] at hp
    rw [Option.some.inj hp]
    exact hreads.alters _

/-- A text that is too short and has a letter of no right, and one that is empty. -/
theorem changed_by_mode_short :
    (IsSymbolic "u-w,go=X" ∧ changed? "u-w,go=X" "dr?" = some "dr----x--x" ∧
      changed? "u-w,go=X" "dr----x--x" = some "dr----x--x" ∧
      ["u-w", "go=X"].foldlM (fun r clause => changed? clause r) "dr?" = some "dr----x--x") ∧
    (Spelled "go=X" ['g', 'o'] '=' ['X'] ∧ changed? "go=X" "dr?" = some "drw---x--x" ∧
      Alters ['g', 'o'] '=' ['X'] "dr?" "drw---x--x") ∧
    (IsOctal "4751" ∧ changed? "4751" "" = some "-rwxr-x--x" ∧
      bits "-rwxr-x--x" =
        (List.range 9).map fun k => (Nat.ofDigitChars 8 "4751".toList 0).testBit (8 - k)) := by
  have hfirst : Spelled "u-w" ['u'] '-' ['w'] :=
    ⟨by decide +kernel, by simp, by simp, by simp⟩
  have hsecond : Spelled "go=X" ['g', 'o'] '=' ['X'] :=
    ⟨by decide +kernel, by simp, by simp, by simp⟩
  have hpieces : Text.splitOn "u-w,go=X" ',' = ["u-w", "go=X"] := by decide +kernel
  have hsymbolic : IsSymbolic "u-w,go=X" := by
    rw [IsSymbolic, hpieces]
    simpa using ⟨⟨_, _, _, hfirst⟩, _, _, _, hsecond⟩
  have hletters : "4751".toList = ['4', '7', '5', '1'] := by decide +kernel
  have hoctal : IsOctal "4751" := ⟨by simp, by simp [hletters], by simp [hletters]⟩
  have hboth : changed? "u-w,go=X" "dr?" = some "dr----x--x" := by decide +kernel
  have hone : changed? "go=X" "dr?" = some "drw---x--x" := by decide +kernel
  have hdigits : changed? "4751" "" = some "-rwxr-x--x" := by decide +kernel
  obtain ⟨-, -, hagain, -, hclauses, -⟩ := (changed_by_mode "u-w,go=X").2 _ _ hboth
  obtain ⟨-, -, -, -, -, halters⟩ := (changed_by_mode "go=X").2 _ _ hone
  obtain ⟨-, -, -, hbits, -, -⟩ := (changed_by_mode "4751").2 _ _ hdigits
  refine ⟨⟨hsymbolic, hboth, hagain, ?_⟩, ⟨hsecond, hone, halters _ _ _ hsecond⟩, hoctal, hdigits,
    hbits hoctal⟩
  rw [← hpieces]
  exact hclauses hsymbolic

end PocketUnix.Permissions
