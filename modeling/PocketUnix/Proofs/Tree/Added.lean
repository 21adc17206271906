import PocketUnix.Proofs.Tree.Bare

/-!
# Nodes that are put in

What a tree is like when new nodes without entries have been put in at some paths where there was
nothing. All other nodes stay as they are, except that directories on the way to a new node have an
entry more.
-/

namespace PocketUnix.Node

open PocketUnix.Path (Apart)

variable {fresh : String → Node} {new new' : Path → Prop} {root root' root'' : Node}
  {parent : Path} {name : String}

/-- The second tree is the first one with new nodes at the paths, each made for its name. -/
structure Added (fresh : String → Node) (new : Path → Prop) (root root' : Node) : Prop where
  there : ∀ p, new p → ∃ (parent : Path) (name : String), p = parent.child name ∧
    root'.bareAt p = some (fresh name).bare
  kept : ∀ q, ¬new q → root'.bareAt q = root.bareAt q
  apart : ∀ q, (∀ p, new p → Apart p q) → root'.get? q = root.get? q

theorem added_none (fresh : String → Node) (root : Node) :
    Added fresh (fun _ => False) root root where
  there := nofun
  kept _ _ := rfl
  apart _ _ := rfl

theorem Added.congr (h : Added fresh new root root') (hsame : ∀ p, new p ↔ new' p) :
    Added fresh new' root root' where
  there p hp := h.there p ((hsame p).mpr hp)
  kept q hq := h.kept q (mt (hsame q).mp hq)
  apart q hq := h.apart q fun p hp => hq p ((hsame p).mp hp)

/-- What is put in step by step is put in. -/
theorem Added.trans (h : Added fresh new root root') (h' : Added fresh new' root' root'') :
    Added fresh (fun p => new p ∨ new' p) root root'' where
  there p hp := by
    by_cases hlater : new' p
    · exact h'.there p hlater
    · rw [h'.kept p hlater]
      exact h.there p (hp.resolve_right hlater)
  kept q hq := by
    obtain ⟨hfirst, hlater⟩ := not_or.mp hq
    rw [h'.kept q hlater, h.kept q hfirst]
  apart q hq := by
    rw [h'.apart q fun p hp => hq p (.inr hp), h.apart q fun p hp => hq p (.inl hp)]

/-- A node without entries is put where there was nothing. -/
theorem added_insert (hname : (fresh name).name = name)
    (hempty : ∀ x r, (fresh name).get? (x :: r) = none)
    (hfree : root.contains (parent.child name) = false)
    (h : root.insert parent (fresh name) = .ok root') :
    Added fresh (· = parent.child name) root root' where
  there := by
    rintro _ rfl
    have hself := get?_insert_self h
    rw [hname] at hself
    exact ⟨parent, name, rfl, by rw [bareAt, hself, Option.map_some]⟩
  kept q hq := by
    by_cases hwithin : parent.child name <+: q
    · obtain ⟨t, rfl⟩ := hwithin
      cases t with
      | nil => exact absurd (List.append_nil _) hq
      | cons x r =>
        have hnew := get?_insert_within h (x :: r)
        have hold : root.contains (parent.child name ++ x :: r) = false := by
          rw [Bool.eq_false_iff]
          intro hbelow
          rw [contains_of_isDirectoryAt (isDirectoryAt_of_below hbelow)] at hfree
          cases hfree
        rw [hname, hempty] at hnew
        rw [bareAt_eq_none_iff.mpr hold, bareAt, hnew, Option.map_none]
    · exact bareAt_insert h (by rwa [hname])
  apart q hq := get?_insert_apart h (by rw [hname]; exact hq _ rfl)

/-- At the new paths there are directories, where directories are made. -/
theorem Added.isDirectoryAt (h : Added fresh new root root')
    (hdirectory : ∀ name, (fresh name).isDirectory = true) {p : Path} (hp : new p) :
    root'.isDirectoryAt p = true := by
  obtain ⟨parent, name, rfl, hbare⟩ := h.there p hp
  rw [isDirectoryAt_of_bareAt_some hbare, isDirectory_bare, hdirectory]

/-- The directories that there were are still there. -/
theorem Added.isDirectoryAt_of_old (h : Added fresh new root root')
    (hdirectory : ∀ name, (fresh name).isDirectory = true) {p : Path}
    (hp : root.isDirectoryAt p = true) : root'.isDirectoryAt p = true := by
  by_cases hnew : new p
  · exact h.isDirectoryAt hdirectory hnew
  · rw [isDirectoryAt_congr_bareAt (h.kept p hnew), hp]

theorem Added.contains_of_not_new (h : Added fresh new root root') {p : Path} (hp : ¬new p) :
    root'.contains p = root.contains p :=
  contains_congr (by rw [shapeAt_eq, shapeAt_eq, h.kept p hp])

end PocketUnix.Node
