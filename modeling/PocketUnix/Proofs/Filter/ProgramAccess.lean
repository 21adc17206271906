import PocketUnix.Filter.Awk
import PocketUnix.Proofs.Text.Ends
import PocketUnix.Proofs.Text.Slices

/-!
# Access to the text of a program

Printing programs are read once more, from one position of their text to the next, with every letter
and every slice checked: where a position is out of range, or the turns of the loop do not end, the
reader gives up. It never does, whatever the text, and reads the same.
-/

namespace PocketUnix.Filter.Awk

variable {c : Char} {cs front rest args : List Char} {items : List Item} {i fuel turns : Nat}

/-- What is read at the start of a text, an item or a blank, and what follows it. -/
def next? (c : Char) (cs : List Char) : Option (List Item × List Char) :=
  if Chars.isBlank c then some ([], cs)
  else if c = ',' then some ([.gap], cs)
  else if c = '"' then
    (Chars.cutWhere? (· == '"') cs).map fun (inner, rest) => ([.literal (.ofList inner)], rest)
  else if c = '$' then
    (reference? (cs.takeWhile Char.isAlphanum)).map fun item =>
      ([item], cs.dropWhile Char.isAlphanum)
  else
    (itemNamed? ((c :: cs).takeWhile Char.isAlpha)).map fun item =>
      ([item], (c :: cs).dropWhile Char.isAlpha)

/-- The reader with fuel takes one turn after the other. -/
theorem readItems?_cons (fuel : Nat) (c : Char) (cs : List Char) :
    readItems? (fuel + 1) (c :: cs) =
      (next? c cs).bind fun (items, rest) => (readItems? fuel rest).map (items ++ ·) := by
  have hone : ∀ (item : Item) (rest : List Char),
      ((readItems? fuel rest).bind fun items => some (item :: items)) =
        (readItems? fuel rest).map ([item] ++ ·) := by
    intro item rest
    rw [Option.map_eq_bind]
    rfl
  rw [readItems?, next?]
  split
  · simp
  · split
    · rfl
    · split
      · rw [Option.bind_map]
        exact congrArg _ (funext fun parts => hone _ parts.2)
      · split
        · rw [Option.bind_map]
          exact congrArg _ (funext fun item => hone item _)
        · rw [Option.bind_map]
          exact congrArg _ (funext fun item => hone item _)

/-- Each turn takes a letter at least, as no item is without a name, and leaves an end of the text.
-/
theorem suffix_of_next? (h : next? c cs = some (items, rest)) : rest <:+ cs := by
  unfold next? at h
  split at h
  · cases h
    exact List.suffix_rfl
  · split at h
    · cases h
      exact List.suffix_rfl
    · split at h
      · obtain ⟨⟨inner, behind⟩, hcut, hpair⟩ := Option.map_eq_some_iff.mp h
        cases hpair
        obtain ⟨quote, -, -, rfl⟩ := Chars.cutWhere?_eq_some hcut
        exact ⟨inner ++ [quote], by simp⟩
      · split at h
        · obtain ⟨item, -, hpair⟩ := Option.map_eq_some_iff.mp h
          cases hpair
          exact List.dropWhile_suffix _
        · obtain ⟨item, hitem, hpair⟩ := Option.map_eq_some_iff.mp h
          cases hpair
          cases hc : c.isAlpha with
          | true =>
            rw [List.dropWhile_cons_of_pos hc]
            exact List.dropWhile_suffix _
          | false =>
            rw [List.takeWhile_cons_of_neg (by simp [hc])] at hitem
            cases hitem

/-- What is printed in braces, without the blanks around it. -/
def printed? (s : List Char) : Option (List Char) := do
  let inner ← Chars.stripEnd? ['}'] (← ['{'].isPrefixOf? s)
  some (Chars.trim (← "print".toList.isPrefixOf? (Chars.trim inner)))

theorem readAction?_eq (s : List Char) :
    readAction? s =
      if s.isEmpty then some [.field 0]
      else (printed? s).bind fun args =>
        if args.isEmpty then some [.field 0] else readItems? args.length args := by
  rw [readAction?, printed?]
  split
  · rfl
  · simp only [Option.bind_eq_bind, Option.bind_assoc, Option.bind_some]

namespace Checked

open Chars (byteLength upTo? from?)

/-- The letters between two positions. -/
def slice? (lo hi : Nat) (s : List Char) : Option (List Char) :=
  if lo ≤ hi ∧ hi ≤ s.length then some ((s.drop lo).take (hi - lo)) else none

/-- One turn at a position: the items that are read, if the text can be read there at all, and the
position to go on at. -/
def turn (args : List Char) (i : Nat) : Option (Option (List Item × Nat)) := do
  let c ← args[i]?
  if Chars.isBlank c then some (some ([], i + 1))
  else if c = ',' then some (some ([.gap], i + 1))
  else if c = '"' then do
    let behind ← slice? (i + 1) args.length args
    match behind.findIdx? (· == '"') with
    | none => some none
    | some length => do
      let inner ← slice? (i + 1) (i + 1 + length) args
      some (some ([.literal (.ofList inner)], i + 1 + length + 1))
  else if c = '$' then do
    let behind ← slice? (i + 1) args.length args
    let stop := i + 1 + (behind.takeWhile Char.isAlphanum).length
    let name ← slice? (i + 1) stop args
    some ((reference? name).map fun item => ([item], stop))
  else do
    let behind ← slice? i args.length args
    let stop := i + (behind.takeWhile Char.isAlpha).length
    let name ← slice? i stop args
    some ((itemNamed? name).map fun item => ([item], stop))

/-- The loop over the text, for some turns at most. -/
def scan (args : List Char) (turns i : Nat) : Option (Option (List Item)) :=
  if args.length ≤ i then some (some [])
  else
    match turns with
    | 0 => none
    | turns + 1 => do
      match ← turn args i with
      | none => some none
      | some (items, j) => do
        let later ← scan args turns j
        some (later.map (items ++ ·))

def readAction (s : List Char) : Option (Option (List Item)) :=
  if s.isEmpty then some (some [.field 0])
  else
    match printed? s with
    | none => some none
    | some args => if args.isEmpty then some (some [.field 0]) else scan args args.length 0

/-- The offset of the first slash. -/
def slash? (s : List Char) : Option Nat :=
  (Chars.cutWhere? (· == '/') s).map fun (front, _) => byteLength front

def read (s : String) : Option (Option Program) :=
  match Chars.trim s.toList with
  | '/' :: rest =>
    match slash? rest with
    | none => some none
    | some offset => do
      let needle ← upTo? offset rest
      let action ← from? (offset + 1) rest
      let items ← readAction (Chars.trim action)
      some (items.map fun items => ⟨some (.ofList needle), items⟩)
  | action => do
    let items ← readAction action
    some (items.map fun items => ⟨none, items⟩)

/-- A part of a text is the slice between the places where it begins and ends. -/
theorem slice?_eq {lo hi : Nat} {s : List Char} (before part behind : List Char)
    (hs : s = before ++ (part ++ behind)) (hlo : lo = before.length)
    (hhi : hi = before.length + part.length) : slice? lo hi s = some part := by
  subst hs hlo hhi
  have hle : before.length + part.length ≤ (before ++ (part ++ behind)).length := by
    simp only [List.length_append]
    omega
  rw [slice?, if_pos ⟨Nat.le_add_right _ _, hle⟩, List.drop_left, Nat.add_sub_cancel_left,
    List.take_left]

/-- The first letter of a kind stands behind the part in front of it. -/
theorem findIdx?_eq_cutWhere? (p : Char → Bool) (s : List Char) :
    s.findIdx? p = (Chars.cutWhere? p s).map fun (front, _) => front.length := by
  induction s with
  | nil => rfl
  | cons c s ih =>
    rw [List.findIdx?_cons, Chars.cutWhere?]
    split
    · rfl
    · rw [ih, Option.map_map, Option.map_map]
      rfl

/-- A turn at a place of the text is the turn at the letters from there on, and the place that it
ends at is in the text. -/
theorem turn_eq (front : List Char) (c : Char) (cs : List Char) :
    turn (front ++ c :: cs) front.length =
      some ((next? c cs).map fun (items, rest) =>
        (items, (front ++ c :: cs).length - rest.length)) := by
  have hlength : (front ++ c :: cs).length = front.length + 1 + cs.length := by
    rw [List.length_append, List.length_cons]
    omega
  have hletter : (front ++ c :: cs)[front.length]? = some c := by simp
  have hbehind : slice? (front.length + 1) (front ++ c :: cs).length (front ++ c :: cs) =
      some cs :=
    slice?_eq (front ++ [c]) cs [] (by simp) (by simp) (by simp; omega)
  have hhere : slice? front.length (front ++ c :: cs).length (front ++ c :: cs) =
      some (c :: cs) :=
    slice?_eq front (c :: cs) [] (by simp) rfl (by simp)
  -- What is taken from behind the letter, or from the letter on, ends where the rest begins.
  have hpart : ∀ part rest : List Char, cs = part ++ rest →
      slice? (front.length + 1) (front.length + 1 + part.length) (front ++ c :: cs) = some part :=
    fun part rest hcs => slice?_eq (front ++ [c]) part rest (by simp [hcs]) (by simp) (by simp)
  have hname : ∀ part rest : List Char, c :: cs = part ++ rest →
      slice? front.length (front.length + part.length) (front ++ c :: cs) = some part :=
    fun part rest hcs => slice?_eq front part rest (by rw [hcs]) rfl rfl
  unfold turn next?
  simp only [hletter, hbehind, hhere, Option.bind_eq_bind, Option.bind_some]
  split
  · rw [Option.map_some, hlength, Nat.add_sub_cancel]
  · split
    · rw [Option.map_some, hlength, Nat.add_sub_cancel]
    · split
      · rw [findIdx?_eq_cutWhere?]
        cases hcut : Chars.cutWhere? (· == '"') cs with
        | none => rfl
        | some parts =>
          obtain ⟨inner, rest⟩ := parts
          obtain ⟨quote, -, -, hcs⟩ := Chars.cutWhere?_eq_some hcut
          have hstop : (front ++ c :: cs).length - rest.length =
              front.length + 1 + inner.length + 1 := by
            rw [hlength, hcs, List.length_append, List.length_cons]
            omega
          simp only [Option.map_some, hstop, hpart inner _ hcs, Option.bind_some]
      · split
        · have hcs := (List.takeWhile_append_dropWhile (p := Char.isAlphanum) (l := cs)).symm
          have hstop : (front ++ c :: cs).length - (cs.dropWhile Char.isAlphanum).length =
              front.length + 1 + (cs.takeWhile Char.isAlphanum).length := by
            have hboth := congrArg List.length hcs
            rw [List.length_append] at hboth
            omega
          simp only [hpart _ _ hcs, Option.bind_some, Option.map_map, Function.comp_def, hstop]
        · have hcs := (List.takeWhile_append_dropWhile (p := Char.isAlpha) (l := c :: cs)).symm
          have hstop : (front ++ c :: cs).length - ((c :: cs).dropWhile Char.isAlpha).length =
              front.length + ((c :: cs).takeWhile Char.isAlpha).length := by
            have hboth := congrArg List.length hcs
            rw [List.length_append, List.length_cons] at hboth
            omega
          simp only [hname _ _ hcs, Option.bind_some, Option.map_map, Function.comp_def, hstop]

/-- Since each turn takes a letter, there are enough turns and enough fuel if there are as many as
letters. -/
theorem scan_eq (hturns : rest.length ≤ turns) (hfuel : rest.length ≤ fuel) :
    scan (front ++ rest) turns front.length = some (readItems? fuel rest) := by
  induction turns generalizing front rest fuel with
  | zero =>
    obtain rfl := List.eq_nil_of_length_eq_zero (Nat.le_zero.mp hturns)
    rw [scan, if_pos (by simp), readItems?]
  | succ turns ih =>
    cases rest with
    | nil => rw [scan, if_pos (by simp), readItems?]
    | cons c cs =>
      obtain ⟨fuel, rfl⟩ : ∃ k, fuel = k + 1 := ⟨fuel - 1, by simp at hfuel; omega⟩
      rw [scan, if_neg (by simp), turn_eq, readItems?_cons]
      cases hnext : next? c cs with
      | none => rfl
      | some read =>
        obtain ⟨items, rest⟩ := read
        obtain ⟨taken, rfl⟩ := suffix_of_next? hnext
        have hposition : (front ++ c :: (taken ++ rest)).length - rest.length =
            (front ++ c :: taken).length := by
          simp only [List.length_append, List.length_cons]
          omega
        have htext : front ++ c :: (taken ++ rest) = front ++ c :: taken ++ rest := by simp
        simp only [List.length_cons, List.length_append] at hturns hfuel
        have hrest : scan (front ++ c :: taken ++ rest) turns (front ++ c :: taken).length =
            some (readItems? fuel rest) := ih (by omega) (by omega)
        rw [Option.map_some, Option.bind_eq_bind, Option.bind_some]
        dsimp only
        rw [hposition, htext, hrest]
        rfl

/-- The braces are found, and what is between them is a slice of the text. -/
theorem readAction_eq (s : List Char) : readAction s = some (readAction? s) := by
  rw [readAction, readAction?_eq]
  split
  · rfl
  · cases printed? s with
    | none => rfl
    | some args =>
      have hscan : scan ([] ++ args) args.length 0 = some (readItems? args.length args) :=
        scan_eq (Nat.le_refl _) (Nat.le_refl _)
      dsimp only
      rw [List.nil_append] at hscan
      rw [hscan, Option.bind_some, apply_ite some]

/-- No text makes the reader look out of range or go on without end. -/
theorem read_eq (s : String) : read s = some (Program.read? s) := by
  unfold read Program.read?
  generalize Chars.trim s.toList = program
  split
  · next rest =>
    cases hcut : Chars.cutWhere? (· == '/') rest with
    | none => simp [slash?, hcut]
    | some parts =>
      obtain ⟨needle, action⟩ := parts
      obtain ⟨slash, hslash, -, rfl⟩ := Chars.cutWhere?_eq_some hcut
      obtain rfl : slash = '/' := beq_iff_eq.mp hslash
      have hbehind : needle ++ '/' :: action = needle ++ ['/'] ++ action := by simp
      have hfrom : from? (byteLength needle + 1) (needle ++ '/' :: action) = some action := by
        have hone : byteLength needle + 1 = byteLength (needle ++ ['/']) := by
          rw [Chars.byteLength_append]
          rfl
        rw [hone, hbehind, Chars.from?_append]
      simp only [slash?, hcut, Option.map_some, Chars.upTo?_append, hfrom, readAction_eq,
        Option.bind_eq_bind, Option.bind_some]
      rw [Option.map_eq_bind]
      rfl
  · simp only [readAction_eq, Option.bind_eq_bind, Option.bind_some]

end Checked

end PocketUnix.Filter.Awk
