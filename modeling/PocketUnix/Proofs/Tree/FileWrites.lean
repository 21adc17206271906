import PocketUnix.Proofs.Tree.StoredText

/-!
# Writing a file

A file can be written at any path but in some places, and each of these has a fault of its own. What
a write leaves behind is the file at the path. The directories on the way to it keep all their other
entries, and what does not lie on the way stays as it is.
-/

namespace PocketUnix.Node

open PocketUnix.Path (Apart)

variable {root root' : Node} {p q : Path} {owner group content : String} {now : DateTime}
  {compose : Option String → String} {fault : TreeFault}

/-- The paths where no file can be stored, with the fault that is found there. -/
inductive Unwritable (root : Node) : Path → TreeFault → Prop
  | root : Unwritable root [] .root
  | parentMissing {parent : Path} (name : String) (h : root.get? parent = none) :
      Unwritable root (parent.child name) .parentMissing
  | notADirectory {parent : Path} {n : Node} (name : String) (h : root.get? parent = some n)
      (hn : n.isDirectory = false) : Unwritable root (parent.child name) .notADirectory
  | isADirectory {parent : Path} {name : String}
      (h : root.isDirectoryAt (parent.child name) = true) :
      Unwritable root (parent.child name) .isADirectory

theorem store_of_parentDirectory_error (h : root.parentDirectory p = .error fault) :
    root.store p owner group now compose = .error fault := by
  rw [store, h]
  rfl

/-- In each of these places a file is refused with the fault of the place. -/
theorem Unwritable.store (h : root.Unwritable p fault) (owner group : String) (now : DateTime)
    (compose : Option String → String) : root.store p owner group now compose = .error fault := by
  cases h with
  | root => rfl
  | parentMissing name h => exact store_of_parentDirectory_error (by simp [parentDirectory, h])
  | notADirectory name h hn =>
    exact store_of_parentDirectory_error (by simp [parentDirectory, h, hn])
  | isADirectory h =>
    have hparent := isDirectoryAt_of_child (contains_of_isDirectoryAt h)
    obtain ⟨n, hn, hdirectory⟩ := exists_of_isDirectoryAt h
    rw [Node.store, parentDirectory_eq_ok_iff.mpr ⟨⟨_, rfl⟩, hparent⟩, hn]
    cases n with
    | file attributes content => cases hdirectory
    | link attributes target => cases hdirectory
    | directory attributes entries => rfl

/-- A path in a directory that is there, with no directory at the path itself, is in none of these
places; any other path is in one. -/
theorem storable_or_unwritable (root : Node) (p : Path) :
    root.Storable p ∨ ∃ fault, root.Unwritable p fault := by
  by_cases hp : p = []
  · exact .inr ⟨.root, hp ▸ .root⟩
  · obtain ⟨parent, name, rfl⟩ := Path.exists_eq_child hp
    cases hn : root.get? parent with
    | none => exact .inr ⟨.parentMissing, .parentMissing name hn⟩
    | some n =>
      cases hdirectory : n.isDirectory with
      | false => exact .inr ⟨.notADirectory, .notADirectory name hn hdirectory⟩
      | true =>
        have hparent : root.isDirectoryAt parent = true := by
          rw [isDirectoryAt, hn]
          exact hdirectory
        cases hplain : root.isDirectoryAt (parent.child name) with
        | true => exact .inr ⟨.isADirectory, .isADirectory hplain⟩
        | false => exact .inl ⟨parent, name, rfl, hparent, hplain⟩

/-- A file is refused in these places, and nowhere else. -/
theorem store_eq_error_iff :
    root.store p owner group now compose = .error fault ↔ root.Unwritable p fault := by
  constructor
  · intro h
    rcases storable_or_unwritable root p with hstorable | ⟨other, hunwritable⟩
    · obtain ⟨root', hstore⟩ := hstorable.exists_store owner group now compose
      rw [hstore] at h
      cases h
    · rw [hunwritable.store] at h
      cases h
      exact hunwritable
  · intro h
    exact h.store owner group now compose

/-- Where no file was, there is a new one behind the path. -/
theorem get?_store_of_not_file (h : root.store p owner group now compose = .ok root')
    (hfile : ∀ attributes old, root.get? p ≠ some (.file attributes old)) :
    ∃ (parent : Path) (name : String), p = parent.child name ∧
      root'.get? p = some (newFile name owner group now (compose none)) := by
  obtain ⟨parent, name, rfl, ⟨attributes, old, hold, -⟩ | ⟨-, hinsert⟩⟩ := store_ok h
  · exact absurd hold (hfile attributes old)
  · exact ⟨parent, name, rfl, get?_insert_self hinsert⟩

/-- On the way to the file each directory keeps its attributes and all entries but one, as the
others stand at paths that do not lead to the file. -/
theorem get?_store_above {name : String} {rest : Path}
    (h : root.store (q ++ name :: rest) owner group now compose = .ok root') :
    ∃ attributes entries entries', root.get? q = some (.directory attributes entries) ∧
      root'.get? q = some (.directory attributes entries') ∧
      ∀ other, other ≠ name → Table.get? other entries' = Table.get? other entries := by
  obtain ⟨file, hfile⟩ := get?_store h
  have hbelow : root'.contains (q ++ name :: rest) = true := by
    rw [contains, hfile]
    rfl
  obtain ⟨d', hd', hdirectory⟩ := exists_of_isDirectoryAt (isDirectoryAt_of_below hbelow)
  have hbare : root'.bareAt q = root.bareAt q := bareAt_store h (by simp)
  rw [bareAt, hd', Option.map_some] at hbare
  obtain ⟨d, hd, hsame⟩ := Option.map_eq_some_iff.mp hbare.symm
  have hother : ∀ other, other ≠ name →
      Table.get? other d'.entries = Table.get? other d.entries := by
    intro other hne
    have hapart : ¬q.child other <+: q ++ name :: rest := by
      rw [Path.child, List.prefix_append_right_inj, List.cons_prefix_cons]
      exact fun hprefix => hne hprefix.1
    have helsewhere := get?_store_elsewhere h hapart
    rw [get?_child, get?_child, hd, hd'] at helsewhere
    exact helsewhere
  cases d' with
  | file attributes content => cases hdirectory
  | link attributes target => cases hdirectory
  | directory attributes entries' =>
    cases d with
    | file attributes content => cases hsame
    | link attributes target => cases hsame
    | directory attributes' entries =>
      cases hsame
      exact ⟨attributes, entries, entries', hd, hd', hother⟩

/-- What a write of a file makes of a tree. -/
structure Written (root : Node) (p : Path) (owner group : String) (now : DateTime)
    (content : String) (root' : Node) : Prop where
  read : ∀ user, root'.readText user p = .ok content
  /-- A file keeps its attributes but for the time. -/
  kept : ∀ attributes old, root.get? p = some (.file attributes old) →
    root'.get? p = some (.file { attributes with modified := now } content)
  /-- Otherwise there is a new file. -/
  fresh : (∀ attributes old, root.get? p ≠ some (.file attributes old)) →
    ∃ (parent : Path) (name : String), p = parent.child name ∧
      root'.get? p = some (newFile name owner group now content)
  elsewhere : ∀ q, Apart p q → root'.get? q = root.get? q
  /-- The directories on the way keep their attributes and all other entries. -/
  above : ∀ q name rest, p = q ++ name :: rest →
    ∃ attributes entries entries', root.get? q = some (.directory attributes entries) ∧
      root'.get? q = some (.directory attributes entries') ∧
      ∀ other, other ≠ name → Table.get? other entries' = Table.get? other entries

/-- A write that goes through leaves the file behind and nothing else. -/
theorem written_of_write (h : root.write p owner group now content = .ok root') :
    root.Written p owner group now content root' where
  read := by
    obtain ⟨attributes, hfile⟩ := get?_store h
    exact readText_of_file hfile
  kept := fun _ _ hfile => get?_store_of_file h hfile
  fresh := get?_store_of_not_file h
  elsewhere := fun _ hq => get?_store_elsewhere h hq.2
  above := by
    rintro q name rest rfl
    exact get?_store_above h

end PocketUnix.Node
