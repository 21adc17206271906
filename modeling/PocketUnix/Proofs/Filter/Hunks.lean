import PocketUnix.Proofs.Filter.EditScripts

/-!
# Hunks

A hunk that has begun takes in what is changed next, and ends in front of the next line that is
kept. So the hunks, each behind the lines that are kept in front of it, make up both lists.
-/

namespace PocketUnix.Filter

variable {a b : List String} {es : List Edit} {hs : List Hunk} {left right : Nat}

/-- The hunk changes something. -/
def Hunk.Proper (h : Hunk) : Prop := h.deleted ≠ [] ∨ h.inserted ≠ []

/-- Behind so many lines on both sides, the hunks lead from the left lines to the right ones. -/
inductive Patches : Nat → Nat → List String → List String → List Hunk → Prop
  | kept (left right : Nat) (lines : List String) : Patches left right lines lines []
  | hunk {left right : Nat} {a b : List String} {hs : List Hunk} (front : List String) (h : Hunk)
    (hleft : h.leftBefore = left + front.length) (hright : h.rightBefore = right + front.length)
    (hproper : h.Proper)
    (hrest : Patches (h.leftBefore + h.deleted.length) (h.rightBefore + h.inserted.length) a b hs) :
    Patches left right (front ++ h.deleted ++ a) (front ++ h.inserted ++ b) (h :: hs)

/-- One more line can be kept in front. -/
theorem Patches.keep (line : String) (h : Patches (left + 1) (right + 1) a b hs) :
    Patches left right (line :: a) (line :: b) hs := by
  cases h with
  | kept => exact .kept left right _
  | hunk front h hleft hright hproper hrest =>
    apply Patches.hunk (line :: front) h _ _ hproper hrest
    · rw [hleft, List.length_cons]
      omega
    · rw [hright, List.length_cons]
      omega

/-- The hunks of a script, and those of one in which a hunk has begun: its lines stand in front. -/
theorem EditsTo.patches (h : EditsTo a b es) :
    (∀ left right, Patches left right a b (hunksFrom left right none es)) ∧
      ∀ begun : Hunk, begun.Proper →
        Patches begun.leftBefore begun.rightBefore (begun.deleted ++ a) (begun.inserted ++ b)
          (hunksFrom (begun.leftBefore + begun.deleted.length)
            (begun.rightBefore + begun.inserted.length) (some begun) es) := by
  induction h with
  | nil =>
    constructor
    · intro left right
      exact .kept left right []
    · intro begun hproper
      exact .hunk [] begun rfl rfl hproper (.kept _ _ [])
  | keep line _ ih =>
    constructor
    · intro left right
      exact (ih.1 _ _).keep line
    · intro begun hproper
      exact .hunk [] begun rfl rfl hproper ((ih.1 _ _).keep line)
  | delete line _ ih =>
    constructor
    · intro left right
      exact ih.2 ⟨left, right, [line], []⟩ (.inl (List.cons_ne_nil _ _))
    · intro begun hproper
      have hnext := ih.2 { begun with deleted := begun.deleted ++ [line] }
        (.inl (List.append_ne_nil_of_right_ne_nil _ (List.cons_ne_nil _ _)))
      simpa [hunksFrom, Nat.add_assoc] using hnext
  | insert line _ ih =>
    constructor
    · intro left right
      exact ih.2 ⟨left, right, [], [line]⟩ (.inr (List.cons_ne_nil _ _))
    · intro begun hproper
      have hnext := ih.2 { begun with inserted := begun.inserted ++ [line] }
        (.inr (List.append_ne_nil_of_right_ne_nil _ (List.cons_ne_nil _ _)))
      simpa [hunksFrom, Nat.add_assoc] using hnext

theorem hunksFrom_keepAll (lines : List String) (left right : Nat) :
    hunksFrom left right none (lines.map .keep) = [] := by
  induction lines generalizing left right with
  | nil => rfl
  | cons line lines ih => exact ih (left + 1) (right + 1)

theorem patches_hunks (a b : List String) : Patches 0 0 a b (hunks a b) :=
  (editsTo_editScript a b).patches.1 0 0

end PocketUnix.Filter
