import PocketUnix.Proofs.Tree.Change

/-!
# Nodes without their entries

What stands at each single path: the node there without its entries. Seen so, putting a node in and
taking one out are not seen from the directories above, but only from the place of the change on.
-/

namespace PocketUnix.Node

/-- A directory without its entries; any other node as it is. -/
def bare : Node → Node
  | .directory attributes _ => .directory attributes []
  | n => n

theorem bare_of_plain {n : Node} (h : n.isDirectory = false) : n.bare = n := by
  cases n with
  | directory attributes entries => cases h
  | file attributes content => rfl
  | link attributes target => rfl

@[simp] theorem isDirectory_bare (n : Node) : n.bare.isDirectory = n.isDirectory := by
  cases n <;> rfl

@[simp] theorem bare_withEntry (e n : Node) : (withEntry e n).bare = n.bare := by
  cases n <;> rfl

@[simp] theorem bare_withoutEntry (name : String) (n : Node) :
    (withoutEntry name n).bare = n.bare := by
  cases n <;> rfl

theorem bare_modify_cons (f : Node → Node) (n : Node) (name : String) (rest : Path) :
    (n.modify f (name :: rest)).bare = n.bare :=
  aspect_modify_cons (fun _ _ _ => rfl) f n name rest

theorem bare_modify {f : Node → Node} (hf : ∀ n, (f n).bare = n.bare) (n : Node) (p : Path) :
    (n.modify f p).bare = n.bare :=
  aspect_modify (fun _ _ _ => rfl) hf n p

/-- What stands at a path, without its entries. -/
def bareAt (root : Node) (p : Path) : Option Node := (root.get? p).map bare

variable {root root' n e : Node} {p parent : Path}

theorem shapeAt_eq (root : Node) (p : Path) : root.shapeAt p = (root.bareAt p).map isDirectory := by
  simp [shapeAt, bareAt, Function.comp_def]

theorem bareAt_eq_none_iff : root.bareAt p = none ↔ root.contains p = false := by
  simp [bareAt, contains]

/-- What is no directory is found as it is. -/
theorem get?_eq_some_iff_bareAt (h : n.isDirectory = false) :
    root.get? p = some n ↔ root.bareAt p = some n := by
  constructor
  · intro hn
    rw [bareAt, hn, Option.map_some, bare_of_plain h]
  · intro hb
    obtain ⟨k, hk, hkn⟩ := Option.map_eq_some_iff.mp hb
    have hplain : k.isDirectory = false := by rw [← isDirectory_bare, hkn, h]
    rw [hk, ← hkn, bare_of_plain hplain]

/-- What is no directory is found where nothing is seen to change. -/
theorem get?_of_bareAt_eq (hn : root.get? p = some n) (hd : n.isDirectory = false)
    (h : root'.bareAt p = root.bareAt p) : root'.get? p = some n := by
  rwa [get?_eq_some_iff_bareAt hd, h, ← get?_eq_some_iff_bareAt hd]

theorem isDirectoryAt_congr_bareAt {q : Path} (h : root'.bareAt q = root.bareAt q) :
    root'.isDirectoryAt q = root.isDirectoryAt q :=
  isDirectoryAt_congr (by rw [shapeAt_eq, shapeAt_eq, h])

theorem isDirectoryAt_of_bareAt_none {q : Path} (h : root.bareAt q = none) :
    root.isDirectoryAt q = false := by
  cases hd : root.isDirectoryAt q with
  | false => rfl
  | true =>
    rw [isDirectoryAt_iff, shapeAt_eq, h] at hd
    cases hd

theorem isDirectoryAt_of_bareAt_some {q : Path} (h : root.bareAt q = some n) :
    root.isDirectoryAt q = n.isDirectory := by
  rw [Bool.eq_iff_iff, isDirectoryAt_iff, shapeAt_eq, h, Option.map_some, Option.some.injEq]

/-- Above a change and apart from it all nodes stay, but for their entries. -/
theorem bareAt_modify {f : Node → Node} (hf : ∀ n, (f n).bare = n.bare) (root : Node)
    {p q : Path} (h : q <+: p ∨ Path.Apart p q) : (root.modify f p).bareAt q = root.bareAt q := by
  rcases h with ⟨t, rfl⟩ | h
  · simp only [bareAt, get?_modify_above, Option.map_map]
    congr 1
    funext k
    exact bare_modify hf k t
  · rw [bareAt, get?_modify_apart f root h.1 h.2, bareAt]

theorem bareAt_insert (h : root.insert parent e = .ok root') {q : Path}
    (hq : ¬parent.child e.name <+: q) : root'.bareAt q = root.bareAt q := by
  rcases Path.above_or_within_or_apart parent e.name q with ha | hw | ha
  · obtain ⟨hd, rfl⟩ := insert_eq_ok_iff.mp h
    exact bareAt_modify (bare_withEntry e) root (.inl ha)
  · exact absurd hw hq
  · rw [bareAt, get?_insert_apart h ha, bareAt]

theorem bareAt_remove (h : root.remove p = .ok (n, root')) {q : Path} (hq : ¬p <+: q) :
    root'.bareAt q = root.bareAt q := by
  obtain ⟨parent, name, rfl, hn, rfl⟩ := remove_eq_ok_iff.mp h
  rcases Path.above_or_within_or_apart parent name q with ha | hw | ha
  · exact bareAt_modify (bare_withoutEntry name) root (.inl ha)
  · exact absurd hw hq
  · rw [bareAt, get?_remove_apart h ha, bareAt]

/-- Putting in a node that is no directory leaves only that node at its place and below. -/
theorem bareAt_insert_plain (h : root.insert parent e = .ok root') (he : e.isDirectory = false)
    (q : Path) : root'.bareAt q =
      if q = parent.child e.name then some e
      else if parent.child e.name <+: q then none
      else root.bareAt q := by
  split
  · next heq =>
    rw [heq]
    exact (get?_eq_some_iff_bareAt he).mp (get?_insert_self h)
  · next hne =>
    split
    · next hw =>
      obtain ⟨t, rfl⟩ := hw
      cases t with
      | nil => exact absurd (List.append_nil _) hne
      | cons x r => rw [bareAt, get?_insert_within h, get?_cons_of_not_directory he, Option.map_none]
    · next hw => exact bareAt_insert h hw

/-- Taking out a node that is no directory is seen at its place only. -/
theorem bareAt_remove_plain (h : root.remove p = .ok (n, root')) (hn : n.isDirectory = false)
    (q : Path) : root'.bareAt q = if q = p then none else root.bareAt q := by
  split
  · next heq => rw [heq, bareAt, get?_remove_self h, Option.map_none]
  · next hne =>
    by_cases hw : p <+: q
    · obtain ⟨t, rfl⟩ := hw
      obtain ⟨parent, name, -, hnode, -⟩ := remove_eq_ok_iff.mp h
      cases t with
      | nil => exact absurd (List.append_nil _) hne
      | cons x r =>
        rw [bareAt, get?_remove_within h, bareAt, get?_append, hnode, Option.bind_some,
          get?_cons_of_not_directory hn]
    · exact bareAt_remove h hw

end PocketUnix.Node
