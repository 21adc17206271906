import PocketUnix.Proofs.Completion.Choices
import PocketUnix.Proofs.Text.Slices

/-!
# Slices of the line

Completion once more, with texts cut at byte offsets that are checked: where an offset lies behind
the end of a text or inside one of its characters it gives up. No line, no cursor and no name makes
it do so, and both do the same.
-/

namespace PocketUnix.Completion.Checked

open PocketUnix.Chars (byteLength upTo? from?)

/-- The offset of the last slash of a word. -/
def lastSlash? (word : List Char) : Option Nat :=
  (Chars.cutLast? (· == '/') word).map fun (front, _) => byteLength front

def splitPath (m : Machine) (word : List Char) : Option (Path × List Char) :=
  match lastSlash? word with
  | none => some (m.cwd, word)
  | some 0 => do some ([], ← from? 1 word)
  | some offset => do
    some (m.resolve (.ofList (← upTo? offset word)), ← from? (offset + 1) word)

def pathOffer (m : Machine) (word : List Char) : Option Offer := do
  let (directory, typed) ← splitPath m word
  some ⟨typed, (found m (.directory directory) typed).map Choice.letters⟩

def offer (m : Machine) (lead word : List Char) : Option Offer :=
  if isCommandPlace lead then some (commandOffer word) else pathOffer m word

/-- The offset in the first text at which it parts from one of the others. -/
def commonEnd (first : List Char) (rest : List (List Char)) : Nat :=
  rest.foldl (fun stop text => min stop (byteLength (commonStart first text))) (byteLength first)

def longestCommonStart : List (List Char) → Option (List Char)
  | [] => some []
  | first :: rest => upTo? (commonEnd first rest) first

def splice (text : List Char) (cursor : Nat) (insert : List Char) : Option Completion :=
  if insert.isEmpty then some .unchanged
  else do
    let before ← upTo? cursor text
    let after ← from? cursor text
    some (.edited (.ofList (before ++ insert ++ after)) (cursor + byteLength insert))

def ofOffer (text : List Char) (cursor : Nat) (offer : Offer) : Option Completion :=
  match offer.candidates with
  | [] => some .unchanged
  | [only] => do
    let rest ← from? (byteLength offer.typed) only
    splice text cursor (if rest.getLast? = some '/' then rest else rest ++ [' '])
  | several => do
    let common ← longestCommonStart several
    if byteLength offer.typed < byteLength common then do
      let rest ← from? (byteLength offer.typed) common
      splice text cursor rest
    else some (.listing (several.map String.ofList))

/-- The cursor is moved back to where a character begins before anything is cut. -/
def complete (text : String) (cursor : Nat) (m : Machine) : Option Completion := do
  let cursor := byteLength (Chars.cut cursor text.toList).1
  let before ← upTo? cursor text.toList
  let start := byteLength (lastWord before).1
  let lead ← upTo? start before
  let word ← from? start before
  ofOffer text.toList cursor (← offer m lead word)

variable {m : Machine} {before after lead word typed : List Char} {directory : Path}
  {source : Source}

/-- A word is cut where its last slash begins and behind it, which are both offsets of letters. -/
theorem splitPath_eq (h : Names m word directory typed) :
    splitPath m word = some (directory, typed) := by
  have hsplit := h.splitPath_eq
  cases h with
  | plain h =>
    have hnone : Chars.cutLast? (· == '/') word = none :=
      Chars.cutLast?_of_not_mem h
    rw [splitPath, lastSlash?, hnone]
    rfl
  | root h =>
    have hcut : Chars.cutLast? (· == '/') ([] ++ '/' :: typed) = some ([], typed) :=
      Chars.cutLast?_letter h _
    have hslash : from? 1 ('/' :: typed) = some typed := Chars.from?_append ['/'] typed
    rw [List.nil_append] at hcut
    rw [splitPath, lastSlash?, hcut]
    simp [hslash]
  | @within d name hd h =>
    have hslash : byteLength d + 1 = byteLength (d ++ ['/']) := by
      rw [Chars.byteLength_append]
      rfl
    have hbehind : d ++ '/' :: typed = d ++ ['/'] ++ typed := by simp
    have hpositive : byteLength d ≠ 0 := by
      obtain ⟨c, cs, rfl⟩ := List.exists_cons_of_ne_nil hd
      have hsize := c.utf8Size_pos
      rw [Chars.byteLength_cons]
      omega
    have hfrom : from? (byteLength d + 1) (d ++ '/' :: typed) = some typed := by
      rw [hslash, hbehind, Chars.from?_append]
    rw [splitPath, lastSlash?, Chars.cutLast?_letter h _]
    cases hlength : byteLength d with
    | zero => exact absurd hlength hpositive
    | succ k =>
      have hupTo : upTo? (k + 1) (d ++ '/' :: typed) = some d := hlength ▸ Chars.upTo?_append d _
      rw [hlength] at hfrom
      simp [hlength, hupTo, hfrom]

/-- The letters that are offered are those of the choices that are found. -/
theorem offer_eq (h : Looks m lead word source typed) :
    offer m lead word = some ⟨typed, (found m source typed).map Choice.letters⟩ := by
  have hoffer := Completion.offer_eq h
  cases h with
  | commands hplace =>
    rw [if_pos (isCommandPlace_iff.mpr hplace)] at hoffer
    rw [offer, if_pos (isCommandPlace_iff.mpr hplace), hoffer]
  | directory hplace hw =>
    rw [offer, if_neg fun hcommand => hplace (isCommandPlace_iff.mp hcommand), pathOffer,
      splitPath_eq hw]
    rfl

/-- A start of a text has as much in common with another text as the whole has, up to its own end.
-/
theorem byteLength_commonStart {acc first : List Char} (h : acc <+: first) (text : List Char) :
    byteLength (commonStart acc text) =
      min (byteLength acc) (byteLength (commonStart first text)) := by
  have hfirst := prefixes_commonStart first text
  have hacc := prefixes_commonStart acc text
  rcases List.prefix_or_prefix_of_prefix h hfirst.1 with hshort | hshort
  · have hsame : acc = commonStart acc text :=
      (prefix_commonStart List.prefix_rfl (hshort.trans hfirst.2)).eq_of_length_le
        hacc.1.length_le
    rw [← hsame, Nat.min_eq_left (Chars.byteLength_le hshort)]
  · have hsame : commonStart first text = commonStart acc text :=
      (prefix_commonStart hshort hfirst.2).eq_of_length_le
        (prefix_commonStart (hacc.1.trans h) hacc.2).length_le
    rw [← hsame, Nat.min_eq_right (Chars.byteLength_le hshort)]

/-- The common start of the texts ends where the first of them parts from the others. -/
theorem longestCommonStart_eq (texts : List (List Char)) :
    longestCommonStart texts = some (Completion.longestCommonStart texts) := by
  have hend : ∀ (first : List Char) (rest : List (List Char)) (acc : List Char), acc <+: first →
      rest.foldl (fun stop text => min stop (byteLength (commonStart first text)))
        (byteLength acc) = byteLength (rest.foldl commonStart acc) := by
    intro first rest
    induction rest with
    | nil => exact fun _ _ => rfl
    | cons text rest ih =>
      intro acc hacc
      have hnext := ih (commonStart acc text) ((prefixes_commonStart acc text).1.trans hacc)
      rw [byteLength_commonStart hacc] at hnext
      exact hnext
  cases texts with
  | nil => rfl
  | cons first rest =>
    have hprefix := (longestStart_longestCommonStart (List.cons_ne_nil first rest)).common first
      List.mem_cons_self
    rw [longestCommonStart, commonEnd, hend first rest first List.prefix_rfl]
    exact Chars.upTo?_of_prefix hprefix

theorem splice_eq (before insert after : List Char) :
    splice (before ++ after) (byteLength before) insert =
      some (Completion.splice before insert after) := by
  simp only [splice, Completion.splice, Chars.upTo?_append, Chars.from?_append,
    Option.bind_eq_bind, Option.bind_some, Chars.byteLength_append]
  split <;> rfl

/-- Every candidate can be cut behind what has been typed of it. -/
theorem ofOffer_eq {offer : Offer} (h : ∀ text ∈ offer.candidates, offer.typed <+: text) :
    ofOffer (before ++ after) (byteLength before) offer =
      some (Completion.ofOffer before after offer) := by
  obtain ⟨typed, candidates⟩ := offer
  unfold ofOffer Completion.ofOffer
  match candidates, h with
  | [], _ => rfl
  | [only], h =>
    have honly : typed <+: only := h only List.mem_cons_self
    simp only [Chars.from?_of_prefix honly, Option.bind_eq_bind, Option.bind_some, splice_eq]
  | first :: second :: rest, h =>
    have hlongest := longestStart_longestCommonStart (List.cons_ne_nil first (second :: rest))
    have htyped := hlongest.longest typed h
    have hlength := Chars.byteLength_lt_iff htyped List.prefix_rfl
    simp only [longestCommonStart_eq, Option.bind_eq_bind, Option.bind_some, hlength,
      Chars.from?_of_prefix htyped]
    split
    · exact splice_eq _ _ _
    · rfl

/-- No text is cut out of range, wherever the cursor stands. -/
theorem complete_eq (text : String) (cursor : Nat) (m : Machine) :
    complete text cursor m = some (Completion.complete text cursor m) := by
  unfold complete Completion.complete
  obtain ⟨before, after, hcut⟩ : ∃ before after, Chars.cut cursor text.toList = (before, after) :=
    ⟨_, _, rfl⟩
  have htext : text.toList = before ++ after := by
    have happend := Chars.cut_append cursor text.toList
    rw [hcut] at happend
    exact happend.symm
  obtain ⟨lead, word, hword⟩ : ∃ lead word, lastWord before = (lead, word) := ⟨_, _, rfl⟩
  have hbefore : before = lead ++ word := by
    have happend := (lastWord_lastWord before).append
    rw [hword] at happend
    exact happend
  obtain ⟨source, typed, hlooks⟩ := exists_looks m lead word
  rw [hcut, htext]
  simp only [Chars.upTo?_append, Option.bind_eq_bind, Option.bind_some, hword]
  rw [hbefore]
  simp only [Chars.upTo?_append, Chars.from?_append, Option.bind_some, offer_eq hlooks,
    Completion.offer_eq hlooks]
  refine ofOffer_eq fun text htext => ?_
  obtain ⟨c, hc, rfl⟩ := List.mem_map.mp htext
  exact prefix_letters_of_found hc

end PocketUnix.Completion.Checked
