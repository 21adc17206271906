import PocketUnix.Proofs.Text.Bytes
import PocketUnix.Proofs.Tree.Walks

/-!
# The order of a walk

A walk comes to a node before what is below it, and to what is below one entry of a directory
before what is below another one whose name has greater bytes.
-/

namespace PocketUnix

namespace Path

/-- The first path is the way to the second one, or both part from a directory, the first one under
the name with the smaller bytes. -/
inductive Before : Path → Path → Prop
  | above (p : Path) (name : String) (rest : Path) : Before p (p ++ name :: rest)
  | aside (p : Path) {a b : String} (h : Text.bytes a < Text.bytes b) (rest rest' : Path) :
      Before (p ++ a :: rest) (p ++ b :: rest')

variable {p q : Path}

/-- The order of two paths is the same from a directory above both. -/
theorem Before.within (h : p.Before q) (start : Path) : Before (start ++ p) (start ++ q) := by
  cases h with
  | above _ name rest =>
    rw [← List.append_assoc]
    exact .above _ name rest
  | aside above h rest rest' =>
    rw [← List.append_assoc, ← List.append_assoc]
    exact .aside _ h rest rest'

/-- What comes before a path is not at or below it. -/
theorem Before.not_prefix (h : p.Before q) : ¬q <+: p := by
  intro hwithin
  cases h with
  | above _ name rest =>
    have hlength := hwithin.length_le
    simp only [List.length_append, List.length_cons] at hlength
    omega
  | aside above h rest rest' =>
    rw [List.prefix_append_right_inj, List.cons_prefix_cons] at hwithin
    rw [hwithin.1] at h
    exact List.lt_irrefl _ h

theorem Before.ne (h : p.Before q) : p ≠ q := by
  rintro rfl
  exact h.not_prefix List.prefix_rfl

end Path

namespace Node

variable {root n : Node} {p : Path}

/-- What is listed of the entries lies behind one of them. -/
theorem exists_cons_of_mem_entriesPreorder {entries : List (String × Node)} {y : Path × Node}
    (h : y ∈ entriesPreorder [] entries) : ∃ e ∈ entries, ∃ rest, y.1 = e.2.name :: rest := by
  obtain ⟨e, he, hy⟩ := mem_entriesPreorder.mp h
  refine ⟨e, he, ?_⟩
  rcases hy with rfl | hy
  · exact ⟨[], rfl⟩
  · rw [preorder_start] at hy
    obtain ⟨z, -, rfl⟩ := List.mem_map.mp hy
    exact ⟨z.1, rfl⟩

theorem pairwise_nodes_of_preorder
    (h : (n.preorder []).Pairwise fun y z => y.1.Before z.1) :
    n.nodes.Pairwise fun y z => y.1.Before z.1 := by
  refine List.pairwise_cons.mpr ⟨fun y hy => ?_, h⟩
  obtain ⟨name, rest, hpath⟩ := List.exists_cons_of_ne_nil (ne_nil_of_mem_preorder hy)
  rw [hpath]
  exact .above [] name rest

/-- The entries stand in order, so that all that is below one of them comes before what is below the
next one. -/
theorem pairwise_entriesPreorder {entries : List (String × Node)}
    (hsorted : Table.Sorted entries) (hkeyed : ∀ e ∈ entries, e.1 = e.2.name)
    (h : ∀ e ∈ entries, e.2.nodes.Pairwise fun y z => y.1.Before z.1) :
    (entriesPreorder [] entries).Pairwise fun y z => y.1.Before z.1 := by
  induction entries with
  | nil => exact .nil
  | cons first others ih =>
    obtain ⟨key, n⟩ := first
    obtain ⟨hfirst, hothers⟩ := List.pairwise_cons.mp hsorted
    obtain ⟨hkey, hkeys⟩ := List.forall_mem_cons.mp hkeyed
    obtain ⟨hn, hnodes⟩ := List.forall_mem_cons.mp h
    rw [entriesPreorder_cons, List.pairwise_append]
    refine ⟨?_, ih hothers hkeys hnodes, fun y hy z hz => ?_⟩
    · rw [List.pairwise_map]
      exact hn.imp fun hyz => hyz.within [n.name]
    · obtain ⟨x, -, rfl⟩ := List.mem_map.mp hy
      obtain ⟨e, he, rest, hpath⟩ := exists_cons_of_mem_entriesPreorder hz
      have hlt : n.name < e.2.name := hkey ▸ hkeys e he ▸ hfirst e he
      rw [hpath]
      exact .aside [] (Text.bytes_lt hlt) x.1 rest

/-- A walk through a tree in order comes to its nodes one before the other. -/
theorem InOrder.pairwise_nodes (h : n.InOrder) :
    n.nodes.Pairwise fun y z => y.1.Before z.1 := by
  induction n using entryInduction with
  | step n ih =>
    obtain ⟨hsorted, hkeyed⟩ := h [] n rfl
    refine pairwise_nodes_of_preorder ?_
    rw [preorder_eq]
    exact pairwise_entriesPreorder hsorted hkeyed fun e he => ih e he (h.entry he)

/-- The nodes that a walk comes to are those that are found, the first of them on no way at all. -/
theorem InOrder.mem_nodes (h : n.InOrder) {y : Path × Node} :
    y ∈ n.nodes ↔ n.get? y.1 = some y.2 := by
  obtain ⟨p, k⟩ := y
  rw [nodes, List.mem_cons, h.mem_preorder]
  constructor
  · rintro (he | ⟨q, -, rfl, hk⟩)
    · cases he
      rfl
    · exact hk
  · intro hk
    by_cases hp : p = []
    · subst hp
      cases hk
      exact .inl rfl
    · exact .inr ⟨p, hp, rfl, hk⟩

/-- At and below the node at a path stands what is found on the ways from there. -/
theorem InOrder.mem_nodes_of_get? (h : root.InOrder) (hn : root.get? p = some n)
    {y : Path × Node} : y ∈ n.nodes ↔ root.get? (p ++ y.1) = some y.2 := by
  rw [(h.get? hn).mem_nodes, get?_append, hn, Option.bind_some]

end Node

end PocketUnix
