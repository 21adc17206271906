import PocketUnix.Proofs.Tree.Bare
import PocketUnix.Proofs.Tree.WellFormed

/-!
# Trees whose directories are in order

In such a tree there is one way only to keep the nodes that are found in it. So a tree is known by
what stands at each path, and a node that is put under a free name and taken out again leaves no
trace.
-/

namespace PocketUnix.Node

/-- Nodes are built from their entries. -/
@[elab_as_elim]
theorem entryInduction {motive : Node → Prop}
    (step : ∀ n, (∀ e ∈ n.entries, motive e.2) → motive n) (n : Node) : motive n := by
  refine step n fun e he => ?_
  have hsmaller : sizeOf e.2 < sizeOf n := by
    cases n with
    | file attributes content => cases he
    | link attributes target => cases he
    | directory attributes entries =>
      have hentry : sizeOf e < sizeOf entries := List.sizeOf_lt_of_mem he
      have hnode : sizeOf e.2 < sizeOf e := by
        obtain ⟨name, entry⟩ := e
        simp only [Prod.mk.sizeOf_spec]
        omega
      rw [directory.sizeOf_spec]
      omega
  exact entryInduction step e.2
termination_by sizeOf n

/-- Every directory has its entries in order. -/
def Sorted (root : Node) : Prop := ∀ p d, root.get? p = some d → Table.Sorted d.entries

variable {root root' n k e : Node} {p parent : Path}

theorem InOrder.sorted (h : root.InOrder) : root.Sorted := fun p d hd => (h p d hd).1

theorem Sorted.entries (h : n.Sorted) : Table.Sorted n.entries := h [] n rfl

theorem Sorted.get? (h : n.Sorted) (hk : n.get? p = some k) : k.Sorted := by
  intro q d hd
  refine h (p ++ q) d ?_
  rw [get?_append, hk]
  exact hd

/-- A tree is in order if its entries are and each of them is. -/
theorem sorted_iff : n.Sorted ↔ Table.Sorted n.entries ∧
    ∀ name e, Table.get? name n.entries = some e → e.Sorted := by
  constructor
  · intro h
    refine ⟨h.entries, fun name e he => h.get? (p := [name]) ?_⟩
    rw [get?_cons, he]
    rfl
  · rintro ⟨hsorted, hentries⟩ p d hd
    cases p with
    | nil =>
      cases hd
      exact hsorted
    | cons name rest =>
      rw [get?_cons, Option.bind_eq_some_iff] at hd
      obtain ⟨e, he, hd⟩ := hd
      exact hentries name e he rest d hd

/-- An entry less leaves the others in order. -/
theorem Sorted.withoutEntry (h : n.Sorted) (name : String) : (withoutEntry name n).Sorted := by
  cases n with
  | file attributes content => exact h
  | link attributes target => exact h
  | directory attributes entries =>
    refine sorted_iff.mpr ⟨h.entries.erase name, fun other k hk => ?_⟩
    have hk : Table.get? other (Table.erase name entries) = some k := hk
    rw [Table.get?_erase] at hk
    split at hk
    · cases hk
    · exact (sorted_iff.mp h).2 other k hk

/-- A change that keeps what it changes in order keeps the whole tree so. -/
theorem Sorted.modify {f : Node → Node} (h : n.Sorted)
    (hf : ∀ k, n.get? p = some k → k.Sorted → (f k).Sorted) : (n.modify f p).Sorted := by
  induction p generalizing n with
  | nil => exact hf n rfl h
  | cons name rest ih =>
    cases n with
    | file attributes content => exact h
    | link attributes target => exact h
    | directory attributes entries =>
      obtain ⟨hsorted, hentries⟩ := sorted_iff.mp h
      simp only [Node.modify]
      cases hentry : Table.get? name entries with
      | none => exact h
      | some entry =>
        have hnew : (entry.modify f rest).Sorted :=
          ih (hentries name entry hentry) fun k hk => hf k (by simp [Node.get?, hentry, hk])
        refine sorted_iff.mpr ⟨hsorted.insert name _, fun other k hk => ?_⟩
        have hk : Table.get? other (Table.insert name (entry.modify f rest) entries) = some k := hk
        rw [Table.get?_insert] at hk
        split at hk
        · cases hk
          exact hnew
        · exact hentries other k hk

theorem Sorted.remove (h : root.Sorted) (hr : root.remove p = .ok (n, root')) : root'.Sorted := by
  obtain ⟨parent, name, -, -, rfl⟩ := remove_eq_ok_iff.mp hr
  exact h.modify fun k _ hk => hk.withoutEntry name

/-- A tree in order is known by what stands at each path, without the entries there: each name is
found in both directories or in neither, and below it the same holds. -/
theorem Sorted.eq_of_bareAt (h : n.Sorted) (hk : k.Sorted)
    (hbare : ∀ q, k.bareAt q = n.bareAt q) : k = n := by
  induction n using entryInduction generalizing k with
  | step n ih =>
    have htop : k.bare = n.bare := by simpa [bareAt] using hbare []
    have hentries : k.entries = n.entries := by
      refine hk.entries.ext h.entries fun name => ?_
      have hname := hbare [name]
      simp only [bareAt, get?_cons, get?_nil] at hname
      cases hn : Table.get? name n.entries with
      | none =>
        rw [hn] at hname
        cases he : Table.get? name k.entries with
        | none => rfl
        | some e => simp [he] at hname
      | some e =>
        rw [hn] at hname
        cases he : Table.get? name k.entries with
        | none => simp [he] at hname
        | some e' =>
          have hbelow : ∀ q, e'.bareAt q = e.bareAt q := by
            intro q
            have hq := hbare (name :: q)
            simpa [bareAt, get?_cons, hn, he] using hq
          rw [ih (name, e) (Table.mem_of_get? hn) ((sorted_iff.mp h).2 name e hn)
            ((sorted_iff.mp hk).2 name e' he) hbelow]
    cases n <;> cases k <;> simp_all [bare, Node.entries, entries?]

/-- Two changes at one place are one change. -/
theorem Sorted.modify_modify (h : n.Sorted) (f g : Node → Node) (p : Path) :
    (n.modify f p).modify g p = n.modify (fun k => g (f k)) p := by
  induction p generalizing n with
  | nil => rfl
  | cons name rest ih =>
    cases n with
    | file attributes content => rfl
    | link attributes target => rfl
    | directory attributes entries =>
      obtain ⟨hsorted, hentries⟩ := sorted_iff.mp h
      simp only [Node.modify]
      cases hentry : Table.get? name entries with
      | none => simp [hentry]
      | some entry =>
        have hsorted : Table.Sorted entries := hsorted
        simp only [Table.get?_insert, if_true, ih (hentries name entry hentry),
          hsorted.insert_insert]

/-- A change of a node that stays as it is changes nothing. -/
theorem Sorted.modify_eq_self {f : Node → Node} (h : n.Sorted) (hk : n.get? p = some k)
    (hf : f k = k) : n.modify f p = n := by
  induction p generalizing n with
  | nil =>
    cases hk
    exact hf
  | cons name rest ih =>
    cases n with
    | file attributes content => rfl
    | link attributes target => rfl
    | directory attributes entries =>
      obtain ⟨hsorted, hentries⟩ := sorted_iff.mp h
      have hsorted : Table.Sorted entries := hsorted
      rw [get?_cons, Option.bind_eq_some_iff] at hk
      obtain ⟨entry, hentry, hk⟩ := hk
      have hentry : Table.get? name entries = some entry := hentry
      simp only [Node.modify, hentry, ih (hentries name entry hentry) hk,
        hsorted.insert_of_get? hentry]

/-- What is put under a free name of a directory and taken out again leaves the tree as it was. -/
theorem Sorted.remove_insert (h : root.Sorted) (hparent : root.isDirectoryAt parent = true)
    (hfree : root.contains (parent.child n.name) = false) :
    ∃ root', root.insert parent n = .ok root' ∧
      root'.remove (parent.child n.name) = .ok (n, root) := by
  have hinsert := insert_of_isDirectoryAt hparent n
  refine ⟨_, hinsert, remove_eq_ok_iff.mpr ⟨parent, n.name, rfl, get?_insert_self hinsert, ?_⟩⟩
  obtain ⟨d, hd, -⟩ := exists_of_isDirectoryAt hparent
  have hname : Table.get? n.name d.entries = none := by
    rw [contains, get?_child, hd, Option.bind_some] at hfree
    simpa using hfree
  have hback : Node.withoutEntry n.name (Node.withEntry n d) = d := by
    cases d with
    | file attributes content => rfl
    | link attributes target => rfl
    | directory attributes entries =>
      have hentries : Table.Sorted entries := (h.get? hd).entries
      simp only [Node.withEntry, Node.withoutEntry, hentries.erase_insert n hname]
  rw [h.modify_modify, h.modify_eq_self hd hback]

end PocketUnix.Node
