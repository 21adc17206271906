import PocketUnix.Proofs.Tree.Names
import PocketUnix.Proofs.Tree.Sorted

/-!
# What walks list

In a tree in order a walk lists every node with the path at which it is found, and nothing else.
The names on that path are those under which the nodes on the way are kept. Walks from different
paths list the same nodes, so that it is enough to know what stands below a node.
-/

namespace PocketUnix.Node

variable {P : String → Prop} {n root k : Node} {p : Path}

theorem mem_entriesPreorder {start : Path} {entries : List (String × Node)} {x : Path × Node} :
    x ∈ entriesPreorder start entries ↔ ∃ e ∈ entries,
      x = (start.child e.2.name, e.2) ∨ x ∈ e.2.preorder (start.child e.2.name) := by
  induction entries with
  | nil => simp [entriesPreorder]
  | cons e rest ih =>
    obtain ⟨name, entry⟩ := e
    simp [entriesPreorder, ih, or_assoc]

theorem preorder_eq (n : Node) (start : Path) :
    n.preorder start = entriesPreorder start n.entries := by
  cases n <;> rfl

/-- A walk lists what is found below its start. -/
theorem InOrder.mem_preorder (h : n.InOrder) (start : Path) (x : Path × Node) :
    x ∈ n.preorder start ↔ ∃ q, q ≠ [] ∧ x.1 = start ++ q ∧ n.get? q = some x.2 := by
  induction n using entryInduction generalizing start with
  | step n ih =>
    obtain ⟨sorted, keyed⟩ := h [] n rfl
    have hfirst : ∀ (name : String) (e : Node), Table.get? name n.entries = some e ↔
        (name, e) ∈ n.entries := fun _ _ => ⟨Table.mem_of_get?, sorted.get?_of_mem⟩
    rw [preorder_eq, mem_entriesPreorder]
    constructor
    · rintro ⟨⟨name, e⟩, he, hx⟩
      obtain rfl : name = e.name := keyed _ he
      rcases hx with rfl | hx
      · exact ⟨[e.name], by simp, rfl, by rw [get?_cons, (hfirst _ _).mpr he]; rfl⟩
      · obtain ⟨q, -, hq, hk⟩ := (ih _ he (h.entry he) _).mp hx
        refine ⟨e.name :: q, by simp, by simp [hq, Path.child], ?_⟩
        rw [get?_cons, (hfirst _ _).mpr he]
        exact hk
    · rintro ⟨q, hne, hx, hk⟩
      obtain ⟨name, rest, rfl⟩ := List.exists_cons_of_ne_nil hne
      rw [get?_cons, Option.bind_eq_some_iff] at hk
      obtain ⟨e, he, hk⟩ := hk
      have hmem := (hfirst _ _).mp he
      obtain rfl : name = e.name := keyed _ hmem
      refine ⟨(e.name, e), hmem, ?_⟩
      by_cases hrest : rest = []
      · subst hrest
        cases hk
        exact .inl (Prod.ext hx rfl)
      · exact .inr ((ih _ hmem (h.entry hmem) _).mpr ⟨rest, hrest, by simp [hx, Path.child], hk⟩)

/-- All nodes but the root are listed from the root. -/
theorem Sound.mem_descendants (h : Sound P root) {p : Path} {n : Node} :
    (p, n) ∈ root.descendants [] ↔ p ≠ [] ∧ root.get? p = some n := by
  rw [descendants, get?_nil]
  dsimp only
  rw [h.wellFormed.inOrder.mem_preorder]
  simp

/-- The names on the way to a node satisfy the condition on names. -/
theorem WellFormed.named (h : WellFormed P n) (hk : n.get? p = some k) : p.Named P := by
  induction p generalizing n with
  | nil => exact fun _ hn => absurd hn List.not_mem_nil
  | cons name rest ih =>
    rw [get?_cons, Option.bind_eq_some_iff] at hk
    obtain ⟨e, he, hk⟩ := hk
    have hmem := Table.mem_of_get? he
    exact List.forall_mem_cons.mpr ⟨(h.keyed hmem).2, ih (h.entry hmem) hk⟩

/-- In a tree in order a node bears the last name on its path. -/
theorem InOrder.name_child (h : root.InOrder) {name : String}
    (hk : root.get? (p.child name) = some k) : k.name = name := by
  rw [get?_child, Option.bind_eq_some_iff] at hk
  obtain ⟨d, hd, hk⟩ := hk
  exact ((h p d hd).2 _ (Table.mem_of_get? hk)).symm

/-- In a tree in order the names on a path are those of the nodes on the way. -/
theorem InOrder.named (h : root.InOrder)
    (hnames : ∀ q n, q ≠ [] → root.get? q = some n → P n.name) (hk : root.get? p = some k) :
    p.Named P := by
  induction p using Path.childInduction generalizing k with
  | root => exact List.forall_mem_nil _
  | child parent name ih =>
    have hname := hnames _ _ (Path.child_ne_nil parent name) hk
    rw [h.name_child hk] at hname
    obtain ⟨d, hd, -⟩ := Option.bind_eq_some_iff.mp (get?_child root parent name ▸ hk)
    exact Path.named_child.mpr ⟨ih hd, hname⟩

/-- All nodes at and below a node, with the names on the way to them. -/
def nodes (n : Node) : List (Path × Node) := ([], n) :: n.preorder []

/-- One name more on the way. -/
def behind (name : String) (y : Path × Node) : Path × Node := (name :: y.1, y.2)

mutual

/-- A walk that starts somewhere else finds the same nodes on the same way from there. -/
theorem preorder_start (start : Path) :
    (n : Node) → n.preorder start = (n.preorder []).map fun y => (start ++ y.1, y.2)
  | .directory _ entries => entriesPreorder_start start entries
  | .file .. => rfl
  | .link .. => rfl

theorem entriesPreorder_start (start : Path) :
    (entries : List (String × Node)) →
      entriesPreorder start entries =
        (entriesPreorder [] entries).map fun y => (start ++ y.1, y.2)
  | [] => rfl
  | (_, n) :: rest => by
    simp only [entriesPreorder]
    rw [preorder_start (start.child n.name), preorder_start (Path.child [] n.name),
      entriesPreorder_start start rest]
    simp [Path.child, Function.comp_def]

end

theorem entriesPreorder_cons (name : String) (n : Node) (rest : List (String × Node)) :
    entriesPreorder [] ((name, n) :: rest) =
      n.nodes.map (behind n.name) ++ entriesPreorder [] rest := by
  rw [entriesPreorder, preorder_start]
  simp [nodes, behind, Path.child]

/-- A walk lists what is below its start, not the start itself. -/
theorem ne_nil_of_mem_preorder {y : Path × Node} (h : y ∈ n.preorder []) : y.1 ≠ [] := by
  rw [preorder_eq] at h
  generalize n.entries = entries at h
  induction entries with
  | nil => cases h
  | cons e rest ih =>
    rw [entriesPreorder_cons] at h
    rcases List.mem_append.mp h with h | h
    · obtain ⟨x, -, rfl⟩ := List.mem_map.mp h
      exact List.cons_ne_nil _ _
    · exact ih h

/-- What is listed from a path is what stands below the node that is found there. -/
theorem descendants_of_get? (hn : root.get? p = some n) :
    root.descendants p = (n.preorder []).map fun y => (p ++ y.1, y.2) := by
  simp only [descendants, hn]
  exact preorder_start p n

mutual

/-- Every name on the way to a node is that of a node on the way. -/
theorem exists_name_of_mem_preorder {name : String} {y : Path × Node} (hname : name ∈ y.1) :
    (n : Node) → y ∈ n.preorder [] → ∃ z ∈ n.preorder [], z.2.name = name
  | .directory _ entries, h => exists_name_of_mem_entries hname entries h
  | .file .., h => by cases h
  | .link .., h => by cases h

theorem exists_name_of_mem_entries {name : String} {y : Path × Node} (hname : name ∈ y.1) :
    (entries : List (String × Node)) → y ∈ entriesPreorder [] entries →
      ∃ z ∈ entriesPreorder [] entries, z.2.name = name
  | [], h => by cases h
  | (key, n) :: rest, h => by
    rw [entriesPreorder_cons] at h ⊢
    rcases List.mem_append.mp h with h | h
    · obtain ⟨x, hx, rfl⟩ := List.mem_map.mp h
      rcases List.mem_cons.mp hname with rfl | hname
      · exact ⟨behind n.name ([], n),
          List.mem_append_left _ (List.mem_map_of_mem List.mem_cons_self), rfl⟩
      · rcases List.mem_cons.mp hx with rfl | hx
        · cases hname
        · obtain ⟨z, hz, rfl⟩ := exists_name_of_mem_preorder hname n hx
          exact ⟨behind n.name z,
            List.mem_append_left _ (List.mem_map_of_mem (List.mem_cons_of_mem _ hz)), rfl⟩
    · obtain ⟨z, hz, rfl⟩ := exists_name_of_mem_entries hname rest h
      exact ⟨z, List.mem_append_right _ hz, rfl⟩

end

end PocketUnix.Node
