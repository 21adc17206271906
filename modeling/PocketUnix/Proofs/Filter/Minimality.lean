import PocketUnix.Proofs.Filter.Patching

/-!
# Longest common subsequences

The table holds the lengths of longest common subsequences, over all the common ones. The script
keeps such a subsequence, although it takes every equal pair that it meets, and so it changes as
few lines as any script.
-/

namespace PocketUnix.Filter

variable {s a b : List String} {es : List Edit} {hs : List Hunk}

structure LongestCommon (s a b : List String) : Prop where
  left : s.Sublist a
  right : s.Sublist b
  longest : ∀ t : List String, t.Sublist a → t.Sublist b → t.length ≤ s.length

/-- No common subsequence is longer than the table says. Where the first lines are equal, it loses
at most its own first line with them; where they differ, it does without one of the two. -/
theorem length_le_common (hleft : s.Sublist a) (hright : s.Sublist b) :
    s.length ≤ common a b := by
  induction a generalizing b s with
  | nil => simp [List.sublist_nil.mp hleft]
  | cons x a iha =>
    induction b generalizing s with
    | nil => simp [List.sublist_nil.mp hright]
    | cons y b ihb =>
      rw [common_cons_cons]
      split
      · have htail : s.tail.length ≤ common a b := iha hleft.tail hright.tail
        rw [List.length_tail] at htail
        omega
      · next hne =>
        rcases List.sublist_cons_iff.mp hleft with hskip | ⟨s', rfl, hrest⟩
        · have hlength := iha hskip hright
          omega
        · have hskip : (x :: s').Sublist b := by
            cases hright with
            | cons _ hskip => exact hskip
            | cons_cons _ _ => exact absurd rfl hne
          have hlength := ihb hleft hskip
          omega

/-- The script keeps as many lines as the table says. -/
theorem length_kept_editScript (a b : List String) :
    (kept (editScript a b)).length = common a b := by
  induction a generalizing b with
  | nil => rw [editScript_nil, kept_map_insert, common_nil_left, List.length_nil]
  | cons x a iha =>
    induction b with
    | nil => rw [editScript_cons_nil, kept_delete, iha, common_nil_right, common_nil_right]
    | cons y b ihb =>
      rw [common_cons_cons, editScript_cons_cons]
      split
      · rw [kept_keep, List.length_cons, iha]
      · split
        · next hle =>
          rw [kept_delete, iha]
          omega
        · next hlt =>
          rw [kept_insert, ihb]
          omega

theorem longestCommon_kept (a b : List String) : LongestCommon (kept (editScript a b)) a b where
  left := (editsTo_editScript a b).kept_sublist_left
  right := (editsTo_editScript a b).kept_sublist_right
  longest _ hleft hright := by
    rw [length_kept_editScript]
    exact length_le_common hleft hright

theorem LongestCommon.length_eq (h : LongestCommon s a b) : s.length = common a b := by
  have hkept := longestCommon_kept a b
  have hle := h.longest _ hkept.left hkept.right
  rw [length_kept_editScript] at hle
  exact Nat.le_antisymm (length_le_common h.left h.right) hle

/-- The lines that a text for two lists is made of. -/
def printed (a b : List String) : List String := (hunks a b).flatMap Hunk.lines

/-- How many lines begin with the mark. -/
def countMarked (mark : Char) (lines : List String) : Nat :=
  lines.countP (·.toList.head? == some mark)

/-- How many lines are marked as deleted or inserted. -/
def countChanged (lines : List String) : Nat := countMarked '<' lines + countMarked '>' lines

def Hunk.size (h : Hunk) : Nat := h.deleted.length + h.inserted.length

def totalSize : List Hunk → Nat
  | [] => 0
  | h :: hs => h.size + totalSize hs

theorem countChanged_append (front behind : List String) :
    countChanged (front ++ behind) = countChanged front + countChanged behind := by
  simp only [countChanged, countMarked, List.countP_append]
  omega

theorem countChanged_deleted (lines : List String) :
    countChanged (lines.map ("< " ++ ·)) = lines.length := by
  simp [countChanged, countMarked, List.countP_map, Function.comp_def]

theorem countChanged_inserted (lines : List String) :
    countChanged (lines.map ("> " ++ ·)) = lines.length := by
  simp [countChanged, countMarked, List.countP_map, Function.comp_def]

/-- A header is read as one, and so it begins with a digit. -/
theorem countChanged_header {h : Hunk} (hproper : h.Proper) : countChanged [h.header] = 0 := by
  have hother {mark : Char} (hmark : mark.isDigit = false) :
      h.header.toList.head? ≠ some mark := by
    intro hhead
    have hdigits : h.header.toList.takeWhile Char.isDigit = [] := by
      cases htext : h.header.toList with
      | nil => rfl
      | cons c rest =>
        rw [htext] at hhead
        have hc : c = mark := Option.some.inj hhead
        simp [hc, hmark]
    have hread := readHeader?_header hproper
    rw [readHeader?_eq_none hdigits] at hread
    cases hread
  have hdeleted : h.header.toList.head? ≠ some '<' := hother (by decide)
  have hinserted : h.header.toList.head? ≠ some '>' := hother (by decide)
  simp [countChanged, countMarked, hdeleted, hinserted]

/-- Of a hunk the lines of both blocks are marked, and nothing else that it prints. -/
theorem countChanged_lines {h : Hunk} (hproper : h.Proper) : countChanged h.lines = h.size := by
  have hseparator :
      countChanged (if h.deleted.isEmpty || h.inserted.isEmpty then [] else ["---"]) = 0 := by
    split <;> rfl
  rw [Hunk.lines, countChanged_append, countChanged_append, countChanged_append,
    countChanged_header hproper, countChanged_deleted, hseparator, countChanged_inserted]
  simp [Hunk.size]

/-- The lines that are printed for hunks are marked for every line of their blocks. -/
theorem countChanged_flatMap (h : ∀ hunk ∈ hs, hunk.Proper) :
    countChanged (hs.flatMap Hunk.lines) = totalSize hs := by
  induction hs with
  | nil => rfl
  | cons hunk hs ih =>
    obtain ⟨hproper, hrest⟩ := List.forall_mem_cons.mp h
    rw [List.flatMap_cons, countChanged_append, countChanged_lines hproper, ih hrest]
    rfl

/-- The hunks of a script hold all of its changes, and what has begun. -/
theorem totalSize_hunksFrom (es : List Edit) (left right : Nat) (begun : Option Hunk) :
    totalSize (hunksFrom left right begun es) = begun.elim 0 Hunk.size + changeCount es := by
  induction es generalizing left right begun with
  | nil => cases begun <;> simp [hunksFrom, totalSize]
  | cons e es ih =>
    cases e with
    | keep line => cases begun <;> simp [hunksFrom, totalSize, ih]
    | delete line =>
      rw [hunksFrom, ih, changeCount_delete]
      cases begun with
      | none => simp [Hunk.size, Nat.add_comm]
      | some hunk =>
        simp only [Hunk.size, Option.getD_some, Option.elim_some, List.length_append,
          List.length_singleton]
        omega
    | insert line =>
      rw [hunksFrom, ih, changeCount_insert]
      cases begun with
      | none => simp [Hunk.size, Nat.add_comm]
      | some hunk =>
        simp only [Hunk.size, Option.getD_some, Option.elim_some, List.length_append,
          List.length_singleton]
        omega

theorem countChanged_printed (a b : List String) :
    countChanged (printed a b) = changeCount (editScript a b) := by
  rw [printed, countChanged_flatMap (patches_hunks a b).proper, hunks, totalSize_hunksFrom]
  exact Nat.zero_add _

/-- The lines of the text are those that have been printed, but that no text at all is one empty
line. -/
theorem countChanged_splitOn_diff (ha : Plain a) (hb : Plain b) :
    countChanged (Text.splitOn (diff a b) '\n') = countChanged (printed a b) := by
  by_cases hnone : printed a b = []
  · have htext : diff a b = "" := congrArg Text.joinLines hnone
    rw [htext, hnone]
    rfl
  · have hplain : Plain (printed a b) := plain_flatMap_lines (hunks_readable ha hb)
    exact congrArg countChanged (splitOn_joinLines hplain hnone)

/-- What is printed for two lists of lines is minimal: all lines but those of a longest common
subsequence, on both sides, are marked as deleted or inserted, and no script changes fewer lines. -/
theorem diff_minimal (a b : List String) :
    (∃ s, LongestCommon s a b) ∧
      (∀ s, LongestCommon s a b →
        countChanged (printed a b) + 2 * s.length = a.length + b.length) ∧
      (∀ es, EditsTo a b es → countChanged (printed a b) ≤ changeCount es) ∧
      diff a b = Text.joinLines (printed a b) ∧
      (Plain a → Plain b →
        countChanged (Text.splitOn (diff a b) '\n') = countChanged (printed a b)) := by
  have hscript := (editsTo_editScript a b).changeCount_add_kept
  rw [length_kept_editScript, ← countChanged_printed] at hscript
  refine ⟨⟨_, longestCommon_kept a b⟩, ?_, ?_, rfl, countChanged_splitOn_diff⟩
  · intro s hs
    rw [hs.length_eq]
    exact hscript
  · intro es hes
    have hkept := length_le_common hes.kept_sublist_left hes.kept_sublist_right
    have hother := hes.changeCount_add_kept
    omega

/-- Two of three lines are common: one is deleted, one is inserted, and it takes two changes. -/
theorem diff_minimal_shifted :
    LongestCommon ["b", "c"] ["a", "b", "c"] ["b", "c", "d"] ∧
      countChanged (printed ["a", "b", "c"] ["b", "c", "d"]) + 2 * 2 = 3 + 3 ∧
      countChanged (Text.splitOn (diff ["a", "b", "c"] ["b", "c", "d"]) '\n') = 2 ∧
      ∀ es, EditsTo ["a", "b", "c"] ["b", "c", "d"] es → 2 ≤ changeCount es := by
  have hkept : kept (editScript ["a", "b", "c"] ["b", "c", "d"]) = ["b", "c"] := by decide
  have hlongest : LongestCommon ["b", "c"] ["a", "b", "c"] ["b", "c", "d"] := by
    rw [← hkept]
    exact longestCommon_kept _ _
  obtain ⟨-, hcount, hleast, -, htext⟩ := diff_minimal ["a", "b", "c"] ["b", "c", "d"]
  have htwo : countChanged (printed ["a", "b", "c"] ["b", "c", "d"]) = 2 := by
    have hsum : _ + 2 * 2 = 3 + 3 := hcount _ hlongest
    omega
  refine ⟨hlongest, hcount _ hlongest, ?_, ?_⟩
  · rw [htext (by decide) (by decide), htwo]
  · intro es hes
    rw [← htwo]
    exact hleast es hes

end PocketUnix.Filter
