import PocketUnix.Proofs.Tree.Sorted

/-!
# Subtrees that are taken out

What a tree is like when all that stands at some paths is taken out of it, in whatever steps. In a
tree that is in order these paths determine what is left, so that neither their order nor a path
within another one makes a difference.
-/

namespace PocketUnix.Node

open PocketUnix.Path (Apart)

variable {root root' root'' n : Node} {p : Path} {doomed doomed' : List Path}

/-- The second tree is the first one without the subtrees at the paths. -/
structure Removed (root : Node) (doomed : List Path) (root' : Node) : Prop where
  gone : ∀ p ∈ doomed, ∀ r, root'.get? (p ++ r) = none
  /-- Directories on the way to a removed one keep all but that entry. -/
  kept : ∀ q, (∀ p ∈ doomed, ¬p <+: q) → root'.bareAt q = root.bareAt q
  apart : ∀ q, (∀ p ∈ doomed, Apart p q) → root'.get? q = root.get? q

theorem removed_nil (root : Node) : root.Removed [] root where
  gone := by simp
  kept _ _ := rfl
  apart _ _ := rfl

theorem removed_of_remove (h : root.remove p = .ok (n, root')) : root.Removed [p] root' where
  gone := by
    simp only [List.mem_singleton, forall_eq]
    exact get?_remove_within h
  kept q hq := bareAt_remove h (hq p List.mem_cons_self)
  apart q hq := get?_remove_apart h (hq p List.mem_cons_self)

/-- A removal misses only what is not there. -/
theorem not_contains_of_remove (h : root.remove p = .error .missing) :
    root.contains p = false := by
  rw [Bool.eq_false_iff]
  intro hthere
  have hp : p ≠ [] := by
    rintro rfl
    cases h
  obtain ⟨parent, name, rfl⟩ := Path.exists_eq_child hp
  obtain ⟨n, hn⟩ := Option.isSome_iff_exists.mp hthere
  rw [remove_eq_ok_iff.mpr ⟨parent, name, rfl, hn, rfl⟩] at h
  cases h

/-- What is not there may be taken out. -/
theorem removed_of_missing (h : root.contains p = false) : root.Removed [p] root where
  gone := by
    simp only [List.mem_singleton, forall_eq]
    intro r
    have hnone : root.get? p = none := by simpa [contains] using h
    rw [get?_append, hnone]
    rfl
  kept _ _ := rfl
  apart _ _ := rfl

/-- Nothing is there that has not been there before. -/
theorem Removed.get?_eq_none (h : root.Removed doomed root') {q : Path} (hq : root.get? q = none) :
    root'.get? q = none := by
  by_cases hwithin : ∃ p ∈ doomed, p <+: q
  · obtain ⟨p, hp, r, rfl⟩ := hwithin
    exact h.gone p hp r
  · have hbare := h.kept q fun p hp hpq => hwithin ⟨p, hp, hpq⟩
    rwa [bareAt, bareAt, hq, Option.map_none, Option.map_eq_none_iff] at hbare

/-- What is taken out step by step is taken out, since what has been lost once does not come back.
-/
theorem Removed.append (h : root.Removed doomed root') (h' : root'.Removed doomed' root'') :
    root.Removed (doomed ++ doomed') root'' where
  gone p hp r := by
    rcases List.mem_append.mp hp with hp | hp
    · exact h'.get?_eq_none (h.gone p hp r)
    · exact h'.gone p hp r
  kept q hq := by
    rw [h'.kept q fun p hp => hq p (List.mem_append_right doomed hp),
      h.kept q fun p hp => hq p (List.mem_append_left doomed' hp)]
  apart q hq := by
    rw [h'.apart q fun p hp => hq p (List.mem_append_right doomed hp),
      h.apart q fun p hp => hq p (List.mem_append_left doomed' hp)]

theorem Removed.congr (h : root.Removed doomed root') (hsame : ∀ p, p ∈ doomed ↔ p ∈ doomed') :
    root.Removed doomed' root' where
  gone p hp := h.gone p ((hsame p).mpr hp)
  kept q hq := h.kept q fun p hp => hq p ((hsame p).mp hp)
  apart q hq := h.apart q fun p hp => hq p ((hsame p).mp hp)

/-- There is one tree only that is left. -/
theorem Removed.unique (h : root.Removed doomed root') (h' : root.Removed doomed root'')
    (hsorted : root'.Sorted) (hsorted' : root''.Sorted) : root' = root'' := by
  refine hsorted'.eq_of_bareAt hsorted fun q => ?_
  by_cases hwithin : ∃ p ∈ doomed, p <+: q
  · obtain ⟨p, hp, r, rfl⟩ := hwithin
    rw [bareAt, bareAt, h.gone p hp, h'.gone p hp]
  · have hq : ∀ p ∈ doomed, ¬p <+: q := fun p hp hpq => hwithin ⟨p, hp, hpq⟩
    rw [h.kept q hq, h'.kept q hq]

/-- The root itself stays, but for its entries. -/
theorem Removed.bare (h : root.Removed doomed root') (hroot : [] ∉ doomed) :
    root'.bare = root.bare := by
  have hkept := h.kept [] fun p hp hprefix => by
    rw [List.prefix_nil.mp hprefix] at hp
    exact hroot hp
  simpa [bareAt] using hkept

/-- Where no directory is taken out, all directories stay. -/
theorem Removed.isDirectoryAt (h : root.Removed doomed root')
    (hplain : ∀ p ∈ doomed, root.isDirectoryAt p = false) (q : Path) :
    root'.isDirectoryAt q = root.isDirectoryAt q := by
  by_cases hwithin : ∃ p ∈ doomed, p <+: q
  · obtain ⟨p, hp, hpq⟩ := hwithin
    have hold : root.isDirectoryAt q = false := by
      rw [Bool.eq_false_iff]
      exact fun hq => not_prefix_of_isDirectoryAt (hplain p hp) hq hpq
    obtain ⟨r, rfl⟩ := hpq
    rw [hold, Node.isDirectoryAt, h.gone p hp]
  · exact isDirectoryAt_congr_bareAt (h.kept q fun p hp hpq => hwithin ⟨p, hp, hpq⟩)

end PocketUnix.Node
