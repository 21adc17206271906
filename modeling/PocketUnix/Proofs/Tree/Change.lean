import PocketUnix.Proofs.Tree.Paths
import PocketUnix.Tree.Store

/-!
# What a change of the tree changes

Putting a node into a directory, taking one out and changing attributes, seen through look-ups: what
stands at the place of the change and below it, what stays on paths that are apart from it, and that
the paths above it keep their shape.
-/

namespace PocketUnix.Node

open PocketUnix.Path (Apart)

/-- Nothing, or whether a directory stands at a path. -/
def shapeAt (root : Node) (p : Path) : Option Bool := (root.get? p).map isDirectory

theorem contains_eq (root : Node) (p : Path) : root.contains p = (root.shapeAt p).isSome := by
  simp [contains, shapeAt]

theorem isDirectoryAt_iff {root : Node} {p : Path} :
    root.isDirectoryAt p = true ↔ root.shapeAt p = some true := by
  unfold isDirectoryAt shapeAt
  cases root.get? p <;> simp

theorem isDirectoryAt_congr {root root' : Node} {p : Path}
    (h : root'.shapeAt p = root.shapeAt p) : root'.isDirectoryAt p = root.isDirectoryAt p := by
  rw [Bool.eq_iff_iff, isDirectoryAt_iff, isDirectoryAt_iff, h]

theorem contains_congr {root root' : Node} {p : Path}
    (h : root'.shapeAt p = root.shapeAt p) : root'.contains p = root.contains p := by
  rw [contains_eq, contains_eq, h]

theorem contains_of_isDirectoryAt {root : Node} {p : Path} (h : root.isDirectoryAt p = true) :
    root.contains p = true := by
  rw [contains_eq, isDirectoryAt_iff.mp h]
  rfl

theorem exists_of_isDirectoryAt {root : Node} {p : Path} (h : root.isDirectoryAt p = true) :
    ∃ n, root.get? p = some n ∧ n.isDirectory = true := by
  simpa [shapeAt] using isDirectoryAt_iff.mp h

theorem get?_cons_of_not_directory {n : Node} (h : n.isDirectory = false) (x : String) (r : Path) :
    n.get? (x :: r) = none := by
  cases n with
  | directory attributes entries => simp [isDirectory] at h
  | file attributes content => rfl
  | link attributes target => rfl

/-- Only directories have anything below them. -/
theorem isDirectoryAt_of_below {root : Node} {p : Path} {x : String} {r : Path}
    (h : root.contains (p ++ x :: r) = true) : root.isDirectoryAt p = true := by
  rw [contains, get?_append] at h
  rw [isDirectoryAt_iff, shapeAt]
  cases hn : root.get? p with
  | none => simp [hn] at h
  | some n =>
    cases hd : n.isDirectory with
    | true => simp [hd]
    | false => simp [hn, get?_cons_of_not_directory hd] at h

theorem isDirectoryAt_of_child {root : Node} {p : Path} {name : String}
    (h : root.contains (p.child name) = true) : root.isDirectoryAt p = true :=
  isDirectoryAt_of_below h

/-- What leads to a node is a directory, but for the node itself. -/
theorem isDirectoryAt_of_prefix {root : Node} {p q : Path} (h : root.contains q = true)
    (hp : p <+: q) (hne : p ≠ q) : root.isDirectoryAt p = true := by
  obtain ⟨t, rfl⟩ := hp
  cases t with
  | nil => exact absurd (List.append_nil p).symm hne
  | cons x r => exact isDirectoryAt_of_below h

/-- No directory is below what is none. -/
theorem not_prefix_of_isDirectoryAt {root : Node} {p q : Path}
    (hp : root.isDirectoryAt p = false) (hq : root.isDirectoryAt q = true) : ¬p <+: q := by
  intro hw
  by_cases hne : p = q
  · rw [hne, hq] at hp
    cases hp
  · have habove := isDirectoryAt_of_prefix (contains_of_isDirectoryAt hq) hw hne
    rw [hp] at habove
    cases habove

@[simp] theorem isDirectory_withAttributes (a : Attributes) (n : Node) :
    (n.withAttributes a).isDirectory = n.isDirectory := by
  cases n <;> rfl

@[simp] theorem isDirectory_updateAttributes (f : Attributes → Attributes) (n : Node) :
    (n.updateAttributes f).isDirectory = n.isDirectory :=
  isDirectory_withAttributes (f n.attributes) n

@[simp] theorem isDirectory_withEntry (e n : Node) :
    (withEntry e n).isDirectory = n.isDirectory := by
  cases n <;> rfl

@[simp] theorem isDirectory_withoutEntry (name : String) (n : Node) :
    (withoutEntry name n).isDirectory = n.isDirectory := by
  cases n <;> rfl

theorem get?_withAttributes_cons (a : Attributes) (n : Node) (x : String) (r : Path) :
    (n.withAttributes a).get? (x :: r) = n.get? (x :: r) := by
  cases n <;> rfl

theorem get?_updateAttributes_cons (f : Attributes → Attributes) (n : Node) (x : String)
    (r : Path) : (n.updateAttributes f).get? (x :: r) = n.get? (x :: r) :=
  get?_withAttributes_cons (f n.attributes) n x r

theorem get?_withEntry_name {n : Node} (h : n.isDirectory = true) (e : Node) (r : Path) :
    (withEntry e n).get? (e.name :: r) = e.get? r := by
  cases n with
  | directory attributes entries => simp [withEntry, get?, Table.get?_insert]
  | file attributes content => simp [isDirectory] at h
  | link attributes target => simp [isDirectory] at h

theorem get?_withEntry_other (n e : Node) {x : String} (h : x ≠ e.name) (r : Path) :
    (withEntry e n).get? (x :: r) = n.get? (x :: r) := by
  cases n with
  | directory attributes entries => simp [withEntry, get?, Table.get?_insert, h.symm]
  | file attributes content => rfl
  | link attributes target => rfl

theorem get?_withoutEntry_name (n : Node) (name : String) (r : Path) :
    (withoutEntry name n).get? (name :: r) = none := by
  cases n with
  | directory attributes entries => simp [withoutEntry, get?, Table.get?_erase]
  | file attributes content => rfl
  | link attributes target => rfl

theorem get?_withoutEntry_other (n : Node) {name x : String} (h : x ≠ name) (r : Path) :
    (withoutEntry name n).get? (x :: r) = n.get? (x :: r) := by
  cases n with
  | directory attributes entries => simp [withoutEntry, get?, Table.get?_erase, h.symm]
  | file attributes content => rfl
  | link attributes target => rfl

/-- A change further down is one of the entries, and leaves all else of a node as it is. -/
theorem aspect_modify_cons {α : Type} {g : Node → α}
    (hg : ∀ a entries entries', g (.directory a entries) = g (.directory a entries'))
    (f : Node → Node) (n : Node) (name : String) (rest : Path) :
    g (n.modify f (name :: rest)) = g n := by
  cases n with
  | directory attributes entries =>
    simp only [modify]
    cases Table.get? name entries with
    | none => rfl
    | some entry => exact hg attributes _ entries
  | file attributes content => rfl
  | link attributes target => rfl

/-- What a change leaves as it is besides the entries, it leaves so at any depth. -/
theorem aspect_modify {α : Type} {g : Node → α}
    (hg : ∀ a entries entries', g (.directory a entries) = g (.directory a entries'))
    {f : Node → Node} (hf : ∀ n, g (f n) = g n) (n : Node) (p : Path) : g (n.modify f p) = g n := by
  cases p with
  | nil => exact hf n
  | cons name rest => exact aspect_modify_cons hg f n name rest

/-- A change that makes no directory of another node, and none of a directory, does so at no depth.
-/
theorem isDirectory_modify {f : Node → Node} (hf : ∀ n, (f n).isDirectory = n.isDirectory)
    (n : Node) (p : Path) : (n.modify f p).isDirectory = n.isDirectory :=
  aspect_modify (fun _ _ _ => rfl) hf n p

/-- Above a change and apart from it the tree keeps its shape. -/
theorem shapeAt_modify {f : Node → Node} (hf : ∀ n, (f n).isDirectory = n.isDirectory)
    (root : Node) {p q : Path} (h : q <+: p ∨ Apart p q) :
    (root.modify f p).shapeAt q = root.shapeAt q := by
  rcases h with ⟨t, rfl⟩ | h
  · simp only [shapeAt, get?_modify_above, Option.map_map]
    congr 1
    funext n
    exact isDirectory_modify hf n t
  · rw [shapeAt, get?_modify_apart f root h.1 h.2, shapeAt]

/-- A change of a node that is no directory leaves the directories as they are. -/
theorem isDirectoryAt_modify_plain {f : Node → Node} (hf : ∀ n, (f n).isDirectory = n.isDirectory)
    {root n : Node} {p : Path} (hn : root.get? p = some n) (hd : n.isDirectory = false)
    (q : Path) : (root.modify f p).isDirectoryAt q = root.isDirectoryAt q := by
  by_cases hw : p <+: q
  · obtain ⟨t, rfl⟩ := hw
    rw [isDirectoryAt, isDirectoryAt, get?_modify_append, get?_append, hn, Option.bind_some,
      Option.bind_some]
    cases t with
    | nil => simp [hf]
    | cons x r =>
      rw [get?_cons_of_not_directory hd, get?_cons_of_not_directory (by rw [hf, hd])]
  · refine isDirectoryAt_congr (shapeAt_modify hf root ?_)
    by_cases ha : q <+: p
    · exact .inl ha
    · exact .inr ⟨hw, ha⟩

/-- A change of attributes leaves the shape of the tree as it is. -/
theorem shapeAt_modify_updateAttributes (f : Attributes → Attributes) (root : Node)
    (p q : Path) : (root.modify (updateAttributes f) p).shapeAt q = root.shapeAt q := by
  by_cases hw : p <+: q
  · obtain ⟨t, rfl⟩ := hw
    rw [shapeAt, shapeAt, get?_modify_append, get?_append]
    cases root.get? p with
    | none => rfl
    | some n =>
      cases t with
      | nil => simp
      | cons x r => simp [get?_updateAttributes_cons]
  · by_cases ha : q <+: p
    · exact shapeAt_modify (isDirectory_updateAttributes f) root (.inl ha)
    · exact shapeAt_modify (isDirectory_updateAttributes f) root (.inr ⟨hw, ha⟩)

theorem shapeAt_modify_touch (now : DateTime) (root : Node) (p q : Path) :
    (root.modify (Node.touch now) p).shapeAt q = root.shapeAt q :=
  shapeAt_modify_updateAttributes (fun a => { a with modified := now }) root p q

theorem insert_of_isDirectoryAt {root : Node} {parent : Path} (h : root.isDirectoryAt parent = true)
    (e : Node) : root.insert parent e = .ok (root.modify (withEntry e) parent) := by
  obtain ⟨n, hn, hd⟩ := exists_of_isDirectoryAt h
  simp [insert, hn, hd]

theorem exists_insert {root : Node} {parent : Path} (h : root.isDirectoryAt parent = true)
    (e : Node) : ∃ root', root.insert parent e = .ok root' := ⟨_, insert_of_isDirectoryAt h e⟩

/-- A node is put into a directory, and nowhere else. -/
theorem insert_eq_ok_iff {root root' : Node} {parent : Path} {e : Node} :
    root.insert parent e = .ok root' ↔
      root.isDirectoryAt parent = true ∧ root' = root.modify (withEntry e) parent := by
  constructor
  · intro h
    have hd : root.isDirectoryAt parent = true := by
      rw [isDirectoryAt_iff, shapeAt]
      unfold insert at h
      cases hn : root.get? parent with
      | none => simp [hn] at h
      | some n =>
        cases hd : n.isDirectory with
        | true => simp [hd]
        | false => simp [hn, hd] at h
    rw [insert_of_isDirectoryAt hd] at h
    exact ⟨hd, (Except.ok.inj h).symm⟩
  · rintro ⟨hd, rfl⟩
    exact insert_of_isDirectoryAt hd e

/-- Nothing can be put below a root that is no directory. -/
theorem insert_of_not_directory {root : Node} (h : root.isDirectory = false) (parent : Path)
    (e : Node) : ∃ fault, root.insert parent e = .error fault := by
  cases hi : root.insert parent e with
  | error fault => exact ⟨fault, rfl⟩
  | ok root' =>
    have hp := (insert_eq_ok_iff.mp hi).1
    cases parent with
    | nil => simp [isDirectoryAt, h] at hp
    | cons x r => simp [isDirectoryAt, get?_cons_of_not_directory h] at hp

variable {root root' : Node} {parent : Path} {e : Node}

theorem get?_insert_within (h : root.insert parent e = .ok root') (r : Path) :
    root'.get? (parent.child e.name ++ r) = e.get? r := by
  obtain ⟨hd, rfl⟩ := insert_eq_ok_iff.mp h
  obtain ⟨n, hn, hd⟩ := exists_of_isDirectoryAt hd
  rw [Path.child, List.append_assoc, get?_modify_append, hn]
  exact get?_withEntry_name hd e r

theorem get?_insert_self (h : root.insert parent e = .ok root') :
    root'.get? (parent.child e.name) = some e := by
  have hnew := get?_insert_within h []
  rwa [List.append_nil] at hnew

/-- Apart from the new node the tree stays as it was. -/
theorem get?_insert_apart (h : root.insert parent e = .ok root') {q : Path}
    (hq : Apart (parent.child e.name) q) : root'.get? q = root.get? q := by
  obtain ⟨hd, rfl⟩ := insert_eq_ok_iff.mp h
  by_cases hw : parent <+: q
  · obtain ⟨t, rfl⟩ := hw
    cases t with
    | nil => exact absurd (by simpa using Path.prefix_child parent e.name) hq.2
    | cons x r =>
      rw [get?_modify_append, get?_append]
      congr 1
      funext n
      exact get?_withEntry_other n e hq.of_child r
  · have ha : ¬q <+: parent := fun ha => hq.2 (ha.trans (Path.prefix_child parent e.name))
    exact get?_modify_apart _ root hw ha

/-- Off the new node the tree keeps its shape. -/
theorem shapeAt_insert (h : root.insert parent e = .ok root') {q : Path}
    (hq : ¬parent.child e.name <+: q) : root'.shapeAt q = root.shapeAt q := by
  rcases Path.above_or_within_or_apart parent e.name q with ha | hw | ha
  · obtain ⟨hd, rfl⟩ := insert_eq_ok_iff.mp h
    exact shapeAt_modify (isDirectory_withEntry e) root (.inl ha)
  · exact absurd hw hq
  · rw [shapeAt, get?_insert_apart h ha, shapeAt]

/-- A node that is no directory, put where none stands, leaves the directories as they are. -/
theorem isDirectoryAt_insert (h : root.insert parent e = .ok root') (he : e.isDirectory = false)
    (ht : root.isDirectoryAt (parent.child e.name) = false) (q : Path) :
    root'.isDirectoryAt q = root.isDirectoryAt q := by
  by_cases hw : parent.child e.name <+: q
  · have hold : root.isDirectoryAt q = false := by
      rw [Bool.eq_false_iff]
      exact fun hq => not_prefix_of_isDirectoryAt ht hq hw
    obtain ⟨t, rfl⟩ := hw
    rw [hold, isDirectoryAt, get?_insert_within h]
    cases t with
    | nil => exact he
    | cons x r => rw [get?_cons_of_not_directory he]
  · exact isDirectoryAt_congr (shapeAt_insert h hw)

/-- A look-up goes to the entry of the first name and on from there. -/
theorem get?_cons (n : Node) (name : String) (rest : Path) :
    n.get? (name :: rest) = (Table.get? name n.entries).bind (·.get? rest) := by
  cases n with
  | directory attributes entries =>
    simp only [get?, Node.entries, entries?, Option.getD_some]
    cases Table.get? name entries <;> rfl
  | file attributes content => rfl
  | link attributes target => rfl

/-- What stands at a child is an entry of what stands at its parent. -/
theorem get?_child (root : Node) (p : Path) (name : String) :
    root.get? (p.child name) = (root.get? p).bind fun n => Table.get? name n.entries := by
  rw [Path.child, get?_append]
  congr 1
  funext n
  rw [get?_cons]
  exact Option.bind_fun_some _

theorem remove_child (root : Node) (p : Path) (name : String) :
    root.remove (p.child name) =
      match root.shapeAt p with
      | some false => .error .notADirectory
      | _ =>
        match root.get? (p.child name) with
        | some n => .ok (n, root.modify (withoutEntry name) p)
        | none => .error .missing := by
  simp only [remove, Path.parent?_child, Path.name?_child, shapeAt, get?_child]
  cases root.get? p with
  | none => rfl
  | some n => cases n <;> rfl

/-- What stands below the root is taken out of the directory above it. -/
theorem remove_eq_ok_iff {root root' n : Node} {p : Path} :
    root.remove p = .ok (n, root') ↔ ∃ (parent : Path) (name : String), p = parent.child name ∧
      root.get? p = some n ∧ root' = root.modify (withoutEntry name) parent := by
  constructor
  · intro h
    have hp : p ≠ [] := by rintro rfl; cases h
    obtain ⟨parent, name, rfl⟩ := Path.exists_eq_child hp
    refine ⟨parent, name, rfl, ?_⟩
    rw [remove_child] at h
    split at h
    · cases h
    · cases hn : root.get? (parent.child name) with
      | none => simp [hn] at h
      | some k => simp_all
  · rintro ⟨parent, name, rfl, hn, rfl⟩
    have hc : root.contains (parent.child name) = true := by simp [contains, hn]
    rw [remove_child, isDirectoryAt_iff.mp (isDirectoryAt_of_child hc), hn]

variable {n : Node} {p : Path}

theorem get?_remove_within (h : root.remove p = .ok (n, root')) (r : Path) :
    root'.get? (p ++ r) = none := by
  obtain ⟨parent, name, rfl, hn, rfl⟩ := remove_eq_ok_iff.mp h
  rw [Path.child, List.append_assoc, get?_modify_append]
  cases root.get? parent with
  | none => rfl
  | some d => exact get?_withoutEntry_name d name r

theorem get?_remove_self (h : root.remove p = .ok (n, root')) : root'.get? p = none := by
  have hgone := get?_remove_within h []
  rwa [List.append_nil] at hgone

/-- Apart from the removed node the tree stays as it was. -/
theorem get?_remove_apart (h : root.remove p = .ok (n, root')) {q : Path} (hq : Apart p q) :
    root'.get? q = root.get? q := by
  obtain ⟨parent, name, rfl, hn, rfl⟩ := remove_eq_ok_iff.mp h
  by_cases hw : parent <+: q
  · obtain ⟨t, rfl⟩ := hw
    cases t with
    | nil => exact absurd (by simpa using Path.prefix_child parent name) hq.2
    | cons x r =>
      rw [get?_modify_append, get?_append]
      congr 1
      funext d
      exact get?_withoutEntry_other d hq.of_child r
  · have ha : ¬q <+: parent := fun ha => hq.2 (ha.trans (Path.prefix_child parent name))
    exact get?_modify_apart _ root hw ha

/-- Off the removed node the tree keeps its shape. -/
theorem shapeAt_remove (h : root.remove p = .ok (n, root')) {q : Path} (hq : ¬p <+: q) :
    root'.shapeAt q = root.shapeAt q := by
  obtain ⟨parent, name, rfl, hn, rfl⟩ := remove_eq_ok_iff.mp h
  rcases Path.above_or_within_or_apart parent name q with ha | hw | ha
  · exact shapeAt_modify (isDirectory_withoutEntry name) root (.inl ha)
  · exact absurd hw hq
  · rw [shapeAt, get?_remove_apart h ha, shapeAt]

/-- Nothing changes its shape by a removal but what goes with it. -/
theorem shapeAt_remove_or (h : root.remove p = .ok (n, root')) (q : Path) :
    root'.shapeAt q = none ∨ root'.shapeAt q = root.shapeAt q := by
  by_cases hw : p <+: q
  · obtain ⟨t, rfl⟩ := hw
    exact .inl (by rw [shapeAt, get?_remove_within h]; rfl)
  · exact .inr (shapeAt_remove h hw)

/-- The directory of a path is the one above it, and has to be there. -/
theorem parentDirectory_eq_ok_iff {root : Node} {p parent : Path} :
    root.parentDirectory p = .ok parent ↔
      (∃ name : String, p = parent.child name) ∧ root.isDirectoryAt parent = true := by
  by_cases hp : p = []
  · subst hp
    constructor
    · intro h
      cases h
    · rintro ⟨⟨name, he⟩, -⟩
      exact absurd he.symm (Path.child_ne_nil parent name)
  · obtain ⟨above, name, rfl⟩ := Path.exists_eq_child hp
    simp only [parentDirectory, Path.parent?_child, isDirectoryAt]
    constructor
    · intro h
      cases hn : root.get? above with
      | none => simp [hn] at h
      | some n =>
        cases hd : n.isDirectory with
        | false => simp [hn, hd] at h
        | true =>
          simp only [hn, hd, if_true, Except.ok.injEq] at h
          subst h
          exact ⟨⟨name, rfl⟩, by simp [hn, hd]⟩
    · rintro ⟨⟨other, he⟩, hd⟩
      obtain ⟨rfl, rfl⟩ := Path.child_injective he
      cases hn : root.get? above with
      | none => simp [hn] at hd
      | some n => simp_all

/-- Nothing but the root has no directory. -/
theorem eq_nil_of_parentDirectory {root : Node} {p : Path}
    (h : root.parentDirectory p = .error .root) : p = [] := by
  by_cases hp : p = []
  · exact hp
  · obtain ⟨above, name, rfl⟩ := Path.exists_eq_child hp
    simp only [parentDirectory, Path.parent?_child] at h
    cases hn : root.get? above with
    | none => simp [hn] at h
    | some n => cases hd : n.isDirectory <;> simp [hn, hd] at h

/-- A file can be stored where no directory stands in a directory that is there. The directories
stay as they are. -/
theorem store_of_parentDirectory {root : Node} {p parent : Path}
    (hp : root.parentDirectory p = .ok parent) (hd : root.isDirectoryAt p = false)
    (owner group : String) (now : DateTime) (compose : Option String → String) :
    ∃ root', root.store p owner group now compose = .ok root' ∧
      ∀ q, root'.isDirectoryAt q = root.isDirectoryAt q := by
  obtain ⟨⟨name, rfl⟩, hparent⟩ := parentDirectory_eq_ok_iff.mp hp
  have hinsert : ∃ root', root.insert parent (newFile name owner group now (compose none)) =
      .ok root' ∧ ∀ q, root'.isDirectoryAt q = root.isDirectoryAt q := by
    obtain ⟨root', h⟩ := exists_insert hparent (newFile name owner group now (compose none))
    exact ⟨root', h, isDirectoryAt_insert h rfl hd⟩
  simp only [store, hp, Path.name?_child, Option.getD_some]
  cases hn : root.get? (parent.child name) with
  | none => exact hinsert
  | some n =>
    cases n with
    | link attributes target => exact hinsert
    | directory attributes entries => simp [isDirectoryAt, hn, isDirectory] at hd
    | file attributes old =>
      refine ⟨_, rfl, isDirectoryAt_modify_plain (fun k => ?_) hn rfl⟩
      cases k <;> rfl

/-- What is stored takes no directory away. -/
theorem isDirectoryAt_store {root root' : Node} {p : Path} {owner group : String}
    {now : DateTime} {compose : Option String → String}
    (h : root.store p owner group now compose = .ok root') (q : Path) :
    root'.isDirectoryAt q = root.isDirectoryAt q := by
  cases hp : root.parentDirectory p with
  | error fault =>
    rw [store, hp] at h
    cases h
  | ok parent =>
    have hd : root.isDirectoryAt p = false := by
      rw [Bool.eq_false_iff]
      intro hd
      obtain ⟨n, hn, hnd⟩ := exists_of_isDirectoryAt hd
      cases n with
      | directory attributes entries =>
        simp only [store, hp, hn] at h
        cases h
      | file attributes content => cases hnd
      | link attributes target => cases hnd
    obtain ⟨stored, hstored, hsame⟩ := store_of_parentDirectory hp hd owner group now compose
    cases hstored.symm.trans h
    exact hsame q

end PocketUnix.Node
