import Mathlib.Data.List.Basic
import PocketUnix.Text.Basic

/-!
# Texts that are cut at a letter

Whatever is cut at a letter falls into pieces without it. And pieces without it are what comes of
the text in which they stand one after the other, with the letter between any two.
-/

namespace PocketUnix

/-- What is in a piece of a list is in the list, and is not what it is cut at. -/
theorem Chars.of_mem_splitOnP {p : Char → Bool} {cs piece : List Char} {c : Char}
    (h : piece ∈ cs.splitOnP p) (hc : c ∈ piece) : c ∈ cs ∧ p c = false := by
  induction cs generalizing piece with
  | nil => simp_all
  | cons d cs ih =>
    rw [List.splitOnP_cons_eq_if_modifyHead] at h
    have hlater : ∀ {piece}, piece ∈ cs.splitOnP p → c ∈ piece → c ∈ d :: cs ∧ p c = false :=
      fun h hc => (ih h hc).imp_left (List.mem_cons_of_mem d)
    split at h
    · rcases List.mem_cons.mp h with rfl | h
      · cases hc
      · exact hlater h hc
    · next hd =>
      cases hs : cs.splitOnP p with
      | nil => exact absurd hs (List.splitOnP_ne_nil p cs)
      | cons first rest =>
        rw [hs] at h hlater
        rw [List.modifyHead_cons] at h
        rcases List.mem_cons.mp h with rfl | h
        · rcases List.mem_cons.mp hc with rfl | hc
          · exact ⟨List.mem_cons_self, by simpa using hd⟩
          · exact hlater List.mem_cons_self hc
        · exact hlater (List.mem_cons_of_mem first h) hc

/-- The pieces of a list are free of what it is cut at. -/
theorem Chars.not_mem_of_mem_splitOn {cs piece : List Char} {c : Char} (h : piece ∈ cs.splitOn c) :
    c ∉ piece := by
  intro hc
  have hcut := (Chars.of_mem_splitOnP h hc).2
  simp at hcut

/-- What stands in a text that is put together stands in a part or between two. -/
theorem Chars.mem_of_mem_intercalate {c : Char} {sep : List Char} {parts : List (List Char)}
    (h : c ∈ sep.intercalate parts) : c ∈ sep ∨ ∃ part ∈ parts, c ∈ part := by
  induction parts with
  | nil => simp at h
  | cons first rest ih =>
    cases rest with
    | nil => exact .inr ⟨first, List.mem_cons_self, by simpa using h⟩
    | cons next rest =>
      rw [List.intercalate_cons_cons, List.mem_append, List.mem_append] at h
      rcases h with (h | h) | h
      · exact .inr ⟨first, List.mem_cons_self, h⟩
      · exact .inl h
      · obtain hsep | ⟨part, hpart, hc⟩ := ih h
        · exact .inl hsep
        · exact .inr ⟨part, List.mem_cons_of_mem first hpart, hc⟩

/-- Two rows of parts are put together like two parts. -/
theorem Chars.intercalate_append (sep : List Char) {before after : List (List Char)}
    (hbefore : before ≠ []) (hafter : after ≠ []) :
    sep.intercalate (before ++ after) = sep.intercalate before ++ sep ++ sep.intercalate after := by
  induction before with
  | nil => exact absurd rfl hbefore
  | cons piece others ih =>
    cases others with
    | nil =>
      rw [List.singleton_append, List.intercalate_cons_of_ne_nil hafter, List.intercalate_singleton]
    | cons next others =>
      have htail := ih (List.cons_ne_nil next others)
      simp only [List.cons_append, List.intercalate_cons_cons, List.append_assoc] at htail ⊢
      rw [htail]

namespace Text

variable {s part : String} {c : Char} {pieces : List String}

theorem not_mem_of_mem_splitOn (h : part ∈ splitOn s c) : c ∉ part.toList := by
  obtain ⟨piece, hpiece, rfl⟩ := List.mem_map.mp h
  rw [String.toList_ofList]
  exact Chars.not_mem_of_mem_splitOn hpiece

/-- Pieces that are put together are cut apart again. -/
theorem splitOn_intercalate (h : ∀ piece ∈ pieces, c ∉ piece.toList) (hne : pieces ≠ []) :
    splitOn ((String.singleton c).intercalate pieces) c = pieces := by
  have hletters : ((String.singleton c).intercalate pieces).toList =
      [c].intercalate (pieces.map String.toList) := by
    rw [String.toList_intercalate, String.toList_singleton]
  have hpieces : ∀ piece ∈ pieces.map String.toList, c ∉ piece := List.forall_mem_map.mpr h
  rw [splitOn, hletters, List.splitOn_intercalate c hpieces (by simpa using hne), List.map_map]
  simp

theorem splitOn_of_not_mem (h : c ∉ s.toList) : splitOn s c = [s] := by
  have hpieces := splitOn_intercalate (List.forall_mem_singleton.mpr h) (List.cons_ne_nil s [])
  rwa [String.intercalate_singleton] at hpieces

end Text

end PocketUnix
