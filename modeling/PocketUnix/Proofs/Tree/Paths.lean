import Mathlib.Data.List.Induction
import PocketUnix.Path

/-!
# Paths that part

Two paths are apart if neither of them lies within the other. A change of the tree at one path is
not seen from a path that is apart from it.
-/

namespace PocketUnix.Path

/-- Neither path lies within the other. -/
def Apart (p q : Path) : Prop := ¬p <+: q ∧ ¬q <+: p

theorem Apart.symm {p q : Path} (h : Apart p q) : Apart q p := ⟨h.2, h.1⟩

theorem isWithin_iff {p base : Path} : p.isWithin base = true ↔ base <+: p := by
  simp [isWithin, List.isPrefixOf_iff_prefix]

theorem child_ne_nil (p : Path) (name : String) : p.child name ≠ [] := by simp [child]

theorem prefix_child (p : Path) (name : String) : p <+: p.child name := List.prefix_append p [name]

/-- What leads to a child leads to its parent, or is the child. -/
theorem prefix_child_iff {p q : Path} {name : String} :
    q <+: p.child name ↔ q <+: p ∨ q = p.child name := by
  rw [child, List.prefix_concat_iff]
  exact Or.comm

/-- Another path leads to the parent, lies within the child or is apart from it. -/
theorem above_or_within_or_apart (parent : Path) (name : String) (q : Path) :
    q <+: parent ∨ parent.child name <+: q ∨ Apart (parent.child name) q := by
  by_cases hw : parent.child name <+: q
  · exact .inr (.inl hw)
  · by_cases ha : q <+: parent.child name
    · rcases prefix_child_iff.mp ha with h | h
      · exact .inl h
      · exact absurd (h ▸ List.prefix_refl _) hw
    · exact .inr (.inr ⟨hw, ha⟩)

/-- A path that is apart from a child, but within its parent, goes on to another name. -/
theorem Apart.of_child {parent r : Path} {name other : String}
    (h : Apart (parent.child name) (parent ++ other :: r)) : other ≠ name := by
  rintro rfl
  exact h.1 (by simp [child])

theorem child_injective {p q : Path} {a b : String} (h : p.child a = q.child b) :
    p = q ∧ a = b := by
  simpa [child] using h

theorem apart_children {p : Path} {a b : String} (h : a ≠ b) : Apart (p.child a) (p.child b) := by
  constructor
  · intro hp
    exact h (child_injective (hp.eq_of_length (by simp [child]))).2
  · intro hp
    exact h (child_injective (hp.eq_of_length (by simp [child]))).2.symm

/-- Paths are built child by child. -/
@[elab_as_elim]
theorem childInduction {motive : Path → Prop} (root : motive [])
    (child : ∀ (p : Path) (name : String), motive p → motive (p.child name)) (p : Path) :
    motive p := by
  induction p using List.reverseRecOn with
  | nil => exact root
  | append_singleton p name ih => exact child p name ih

/-- Every path but the root is a child. -/
theorem exists_eq_child {p : Path} (h : p ≠ []) :
    ∃ (parent : Path) (name : String), p = parent.child name :=
  ⟨p.dropLast, p.getLast h, (List.dropLast_concat_getLast h).symm⟩

end PocketUnix.Path
