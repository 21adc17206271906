import PocketUnix.Proofs.Text.Ends
import PocketUnix.Session.Completion

/-!
# The word in front of the cursor

What a tab looks at: the word that ends at the cursor, what stands before it, and, where it is the
name of a file, the directory that it names. Each of them is described here by what it is, next to
the function that finds it.
-/

namespace PocketUnix

namespace Completion

variable {before lead word : List Char}

/-- The word has no blanks, and a blank stands before it, if anything does. -/
structure LastWord (before lead word : List Char) : Prop where
  append : before = lead ++ word
  word : ∀ c ∈ word, Chars.isBlank c = false
  lead : ∀ c ∈ lead.getLast?, Chars.isBlank c = true

/-- What is found in front of the cursor is the last word. -/
theorem lastWord_lastWord (before : List Char) :
    LastWord before (lastWord before).1 (lastWord before).2 where
  append := (Chars.dropEndWhile_append_takeWhile _ before).symm
  word c hc := by
    have htaken := List.mem_takeWhile_imp (List.mem_reverse.mp hc)
    simpa using htaken
  lead c hc := by
    have hlast := Chars.not_of_getLast?_dropEndWhile hc
    simpa using hlast

theorem LastWord.of_eq (h : lastWord before = (lead, word)) : LastWord before lead word := by
  have hword := lastWord_lastWord before
  rw [h] at hword
  exact hword

/-- There is one last word only. -/
theorem LastWord.lastWord_eq (h : LastWord before lead word) : lastWord before = (lead, word) := by
  have hlead : Chars.dropEndWhile (!Chars.isBlank ·) before = lead := by
    rw [h.append]
    exact Chars.dropEndWhile_append (fun c hc => by simp [h.word c hc])
      fun c hc => by simp [h.lead c hc]
  have hword : (before.reverse.takeWhile (!Chars.isBlank ·)).reverse = word := by
    have hparts := Chars.dropEndWhile_append_takeWhile (!Chars.isBlank ·) before
    rw [hlead] at hparts
    exact List.append_cancel_left (hparts.trans h.append)
  rw [lastWord, hlead, hword]

/-- Nothing but blanks stands between the start of the line, a bar or a semicolon and the end of
what is given. -/
def CommandPlace (lead : List Char) : Prop :=
  ∃ front gap, lead = front ++ gap ∧ (∀ c ∈ gap, Chars.isBlank c = true) ∧
    ∀ c ∈ front.getLast?, c = '|' ∨ c = ';'

/-- A place is tested by the letters in front of it, without the blanks. -/
theorem isCommandPlace_iff : isCommandPlace lead = true ↔ CommandPlace lead := by
  constructor
  · intro h
    refine ⟨Chars.trimEnd lead, (lead.reverse.takeWhile Chars.isBlank).reverse, ?_, ?_, ?_⟩
    · exact (Chars.dropEndWhile_append_takeWhile Chars.isBlank lead).symm
    · exact fun c hc => List.mem_takeWhile_imp (List.mem_reverse.mp hc)
    · intro c hc
      rw [Option.mem_def] at hc
      simpa [isCommandPlace, hc] using h
  · rintro ⟨front, gap, rfl, hgap, hfront⟩
    have hmark : ∀ c ∈ front.getLast?, Chars.isBlank c = false := by
      intro c hc
      rcases hfront c hc with rfl | rfl <;> decide
    have htrim : Chars.trimEnd (front ++ gap) = front := Chars.dropEndWhile_append hgap hmark
    rw [isCommandPlace, htrim]
    cases hlast : front.getLast? with
    | none => rfl
    | some c => simpa using hfront c hlast

/-- A word names a directory and the start of a name in it: without a slash in the working
directory, with no other than a leading slash in the root, and else in the directory that is read
from what stands before the last slash. -/
inductive Names (m : Machine) : List Char → Path → List Char → Prop
  | plain {name : List Char} (h : '/' ∉ name) : Names m name m.cwd name
  | root {name : List Char} (h : '/' ∉ name) : Names m ('/' :: name) [] name
  | within {directory name : List Char} (hd : directory ≠ []) (h : '/' ∉ name) :
    Names m (directory ++ '/' :: name) (m.resolve (.ofList directory)) name

variable {m : Machine} {directory : Path} {typed : List Char}

/-- A word is split into the directory and the start of a name that it names. -/
theorem Names.splitPath_eq (h : Names m word directory typed) :
    splitPath m word = (directory, typed) := by
  cases h with
  | plain h =>
    have hnone : Chars.cutLast? (· == '/') word = none :=
      Chars.cutLast?_of_not_mem h
    rw [splitPath, hnone]
  | root h =>
    have hcut : Chars.cutLast? (· == '/') ([] ++ '/' :: typed) = some ([], typed) :=
      Chars.cutLast?_letter h _
    rw [List.nil_append] at hcut
    rw [splitPath, hcut]
  | @within d name hd h =>
    rw [splitPath, Chars.cutLast?_letter h _]
    cases d with
    | nil => exact absurd rfl hd
    | cons c cs => rfl

/-- Every word names a directory and the start of a name. -/
theorem exists_names (m : Machine) (word : List Char) :
    ∃ directory typed, Names m word directory typed := by
  by_cases hslash : '/' ∈ word
  · obtain ⟨front, name, rfl, hname⟩ := Chars.exists_last_place hslash
    by_cases hfront : front = []
    · rw [hfront]
      exact ⟨_, _, .root hname⟩
    · exact ⟨_, _, .within hfront hname⟩
  · exact ⟨_, _, .plain hslash⟩

/-- What has been typed of a name is free of slashes. -/
theorem Names.slash_not_mem (h : Names m word directory typed) : '/' ∉ typed := by
  cases h <;> assumption

end Completion

end PocketUnix
