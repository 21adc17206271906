import PocketUnix.Proofs.Shell.Quotes
import PocketUnix.Proofs.Text.Pieces

/-!
# The parts of a line and their words

A line is cut and read by the same quotes. Its parts, one behind the other, are the line, and it is
cut at a separator just if no quote is open there. So a part never ends inside a quote, but for the
last one, and the words of the parts are those of the line with a blank at each cut.
-/

namespace PocketUnix.Shell

variable {separator : Char} {s front : List Char} {pieces : List (List Char)}

/-- A line is not cut at all, or its last part stands behind a line in which no quote is left
open. -/
@[elab_as_elim]
theorem cutInduction {motive : List Char → Prop} (hseparator : isQuote separator = false)
    (whole : ∀ s, splitUnquoted separator none s = [s] → motive s)
    (cut : ∀ front last, openQuote none front = none →
      splitUnquoted separator none last = [last] → motive front →
      motive (front ++ separator :: last)) (s : List Char) : motive s := by
  rcases splitUnquoted_cases hseparator none s with hall | ⟨front, last, hs, hfront, hlast⟩
  · exact whole s hall
  · have hshorter : front.length < s.length := by
      rw [hs, List.length_append, List.length_cons]
      omega
    rw [hs]
    exact cut front last hfront hlast (cutInduction hseparator whole cut front)
termination_by s.length

theorem openQuote_append_separator (hseparator : isQuote separator = false)
    (h : openQuote none front = none) (rest : List Char) :
    openQuote none (front ++ separator :: rest) = openQuote none rest := by
  rw [openQuote_append, h]
  simp [openQuote, hseparator]

/-- Where no quote is open at the end of a line, none is open at the end of a part of it. -/
theorem openQuote_of_mem (hseparator : isQuote separator = false) (h : openQuote none s = none) :
    ∀ part ∈ splitUnquoted separator none s, openQuote none part = none := by
  induction s using cutInduction hseparator with
  | whole s hall =>
    rw [hall, List.forall_mem_singleton]
    exact h
  | cut front last hfront hlast ih =>
    rw [openQuote_append_separator hseparator hfront] at h
    rw [splitUnquoted_append_separator hseparator hfront, hlast, List.forall_mem_append,
      List.forall_mem_singleton]
    exact ⟨ih hfront, h⟩

/-- No quote is open where a line is cut. -/
theorem openQuote_of_mem_dropLast (hseparator : isQuote separator = false) (s : List Char) :
    ∀ part ∈ (splitUnquoted separator none s).dropLast, openQuote none part = none := by
  rcases splitUnquoted_cases hseparator none s with hall | ⟨front, last, rfl, hfront, hlast⟩
  · simp [hall]
  · rw [splitUnquoted_append_separator hseparator hfront, hlast, List.dropLast_concat]
    exact openQuote_of_mem hseparator hfront

/-- Parts that leave no quote open leave none open when they are put together. -/
theorem openQuote_intercalate (hseparator : isQuote separator = false)
    (h : ∀ part ∈ pieces, openQuote none part = none) :
    openQuote none ([separator].intercalate pieces) = none := by
  induction pieces with
  | nil => rfl
  | cons piece others ih =>
    obtain ⟨hpiece, hothers⟩ := List.forall_mem_cons.mp h
    cases others with
    | nil => rwa [List.intercalate_singleton]
    | cons next others =>
      rw [List.intercalate_cons_cons, List.append_assoc, List.singleton_append,
        openQuote_append_separator hseparator hpiece]
      exact ih hothers

/-- A line is the pieces that it is cut into, with separators between them. -/
theorem intercalate_splitUnquoted (hseparator : isQuote separator = false) (s : List Char) :
    [separator].intercalate (splitUnquoted separator none s) = s := by
  induction s using cutInduction hseparator with
  | whole s hall => rw [hall, List.intercalate_singleton]
  | cut front last hfront hlast ih =>
    rw [splitUnquoted_append_separator hseparator hfront, hlast,
      Chars.intercalate_append _ (splitUnquoted_ne_nil _ _ _) (List.cons_ne_nil last []), ih,
      List.intercalate_singleton, List.append_assoc, List.singleton_append]

/-- Parts that leave no quote open, but for the last one, are read like one line with blanks between
them. -/
theorem flatMap_scanWords (h : ∀ part ∈ pieces.dropLast, openQuote none part = none) :
    pieces.flatMap (scanWords none none) = scanWords none none ([' '].intercalate pieces) := by
  have hblank : Chars.isBlank ' ' = true := by decide
  induction pieces with
  | nil => rfl
  | cons piece others ih =>
    cases others with
    | nil => rw [List.flatMap_singleton, List.intercalate_singleton]
    | cons next others =>
      rw [List.dropLast_cons_cons, List.forall_mem_cons] at h
      rw [List.flatMap_cons, ih h.2, List.intercalate_cons_cons, List.append_assoc,
        List.singleton_append, scanWords_append_blank hblank h.1]

theorem toList_intercalate_parts (sep : String) (separator : Char) (line : String) :
    (sep.intercalate (parts separator line)).toList =
      sep.toList.intercalate (splitUnquoted separator none line.toList) := by
  rw [String.toList_intercalate, parts, List.map_map]
  simp [Function.comp_def]

/-- Put together, the parts of a line are the line again. -/
theorem intercalate_parts (hseparator : isQuote separator = false) (line : String) :
    (String.singleton separator).intercalate (parts separator line) = line := by
  rw [← String.toList_inj, toList_intercalate_parts, String.toList_singleton]
  exact intercalate_splitUnquoted hseparator line.toList

/-- A line is cut between two texts if some of its parts, from the first one on, make up the one, and
all others the other. -/
def Divides (separator : Char) (line front rest : String) : Prop :=
  ∃ before after, before ≠ [] ∧ after ≠ [] ∧ parts separator line = before ++ after ∧
    (String.singleton separator).intercalate before = front ∧
    (String.singleton separator).intercalate after = rest

/-- A line is cut at a separator just if no quote is open in front of it. -/
theorem divides_iff (hseparator : isQuote separator = false) {line front rest : String} :
    Divides separator line front rest ↔
      line = front ++ String.singleton separator ++ rest ∧ openQuote none front.toList = none := by
  constructor
  · rintro ⟨before, after, hbefore, hafter, hparts, rfl, rfl⟩
    constructor
    · have hline := intercalate_parts hseparator line
      rw [hparts, String.intercalate_append_of_ne_nil hbefore hafter] at hline
      exact hline.symm
    · have hclosed := openQuote_of_mem_dropLast hseparator line.toList
      have hletters := congrArg (List.map String.toList) hparts
      rw [parts, List.map_map, List.map_append] at hletters
      simp only [Function.comp_def, String.toList_ofList, List.map_id'] at hletters
      rw [hletters, List.dropLast_append_of_ne_nil (by simpa using hafter),
        List.forall_mem_append] at hclosed
      rw [String.toList_intercalate, String.toList_singleton]
      exact openQuote_intercalate hseparator hclosed.1
  · rintro ⟨rfl, h⟩
    have hletters : (front ++ String.singleton separator ++ rest).toList =
        front.toList ++ separator :: rest.toList := by
      simp
    refine ⟨parts separator front, parts separator rest, parts_ne_nil _ _, parts_ne_nil _ _, ?_,
      intercalate_parts hseparator front, intercalate_parts hseparator rest⟩
    rw [parts, hletters, splitUnquoted_append_separator hseparator h, List.map_append, parts, parts]

/-- The parts between bars are the line again, with a bar between any two. A line is cut at a bar
just if no quote is open there. And its parts have the words of the line in which a blank stands for
each bar that it is cut at. -/
theorem parts_words (line : String) :
    "|".intercalate (parts '|' line) = line ∧
      (∀ front rest, Divides '|' line front rest ↔
        line = front ++ "|" ++ rest ∧ openQuote none front.toList = none) ∧
      (parts '|' line).flatMap words = words (" ".intercalate (parts '|' line)) := by
  have hbar : isQuote '|' = false := by decide
  refine ⟨intercalate_parts hbar line, fun front rest => divides_iff hbar, ?_⟩
  have hclosed := openQuote_of_mem_dropLast hbar line.toList
  have hwords := flatMap_scanWords hclosed
  rw [words, toList_intercalate_parts, parts, List.flatMap_map]
  simp only [words, String.toList_ofList, ← List.map_flatMap]
  exact congrArg (List.map String.ofList) hwords

/-- A bar in a quote that is never closed stays in its word, with all that follows it. -/
example : (parts '|' "echo 'a|b'|wc \"c|d e").map words = [["echo", "a|b"], ["wc", "c|d e"]] := by
  decide

end PocketUnix.Shell
