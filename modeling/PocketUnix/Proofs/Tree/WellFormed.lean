import PocketUnix.Proofs.Permissions
import PocketUnix.Proofs.Table
import PocketUnix.Proofs.Tree.Change

/-!
# Well-formed trees

In a well-formed tree every node shows its kind in its permission text, and every directory keeps
its nodes in order under the names that they bear. What is put in, taken out or changed in place
leaves the tree well formed. The names may have to satisfy a condition, which then has to be seen
of each new name.
-/

namespace PocketUnix.Node

variable {P : String → Prop}

/-- A permission text whose letter tells directories, links and all other nodes apart. -/
structure Fits (n : Node) (permissions : String) : Prop where
  rendered : Permissions.Rendered permissions
  directory_iff : Permissions.kindLetter permissions = 'd' ↔ n.isDirectory = true
  link_iff : Permissions.kindLetter permissions = 'l' ↔ n.isLink = true

/-- The node has a permission text of its kind. -/
def Marked (n : Node) : Prop := n.Fits n.attributes.permissions

theorem Fits.congr {n n' : Node} {permissions : String} (h : n.Fits permissions)
    (hd : n'.isDirectory = n.isDirectory) (hl : n'.isLink = n.isLink) : n'.Fits permissions :=
  ⟨h.rendered, by rw [h.directory_iff, hd], by rw [h.link_iff, hl]⟩

/-- A mode does not touch the kind letter. -/
theorem Marked.fits_apply {n : Node} (h : n.Marked) {s : String} {mode : Permissions.Mode}
    (hm : Permissions.Mode.read? s = some mode) : n.Fits (mode.apply n.attributes.permissions) where
  rendered := Permissions.Mode.rendered_apply hm _
  directory_iff := by rw [Permissions.Mode.kindLetter_apply, h.directory_iff]
  link_iff := by rw [Permissions.Mode.kindLetter_apply, h.link_iff]

theorem marked_of_render {n : Node} (letter : Char) (bits : List Bool)
    (h : n.attributes.permissions = Permissions.render letter bits) (hlen : bits.length = 9)
    (hd : letter = 'd' ↔ n.isDirectory = true) (hl : letter = 'l' ↔ n.isLink = true) :
    n.Marked := by
  unfold Marked
  rw [h]
  exact ⟨⟨letter, bits, hlen, rfl⟩, by rw [Permissions.kindLetter_render, hd],
    by rw [Permissions.kindLetter_render, hl]⟩

theorem marked_newFile (name owner group : String) (now : DateTime) (content : String) :
    (newFile name owner group now content).Marked :=
  marked_of_render '-'
    [true, true, false, true, false, false, true, false, false] rfl rfl
    (by simp [newFile, isDirectory]) (by simp [newFile, isLink])

theorem marked_newDirectory (name owner group : String) (now : DateTime) :
    (newDirectory name owner group now).Marked :=
  marked_of_render 'd'
    [true, true, true, true, false, true, true, false, true] rfl rfl
    (by simp [newDirectory, isDirectory]) (by simp [newDirectory, isLink])

theorem marked_newLink (name owner group : String) (now : DateTime) (target : String) :
    (newLink name owner group now target).Marked :=
  marked_of_render 'l'
    [true, true, true, true, true, true, true, true, true] rfl rfl
    (by simp [newLink, isDirectory]) (by simp [newLink, isLink])

@[simp] theorem isLink_withAttributes (a : Attributes) (n : Node) :
    (n.withAttributes a).isLink = n.isLink := by
  cases n <;> rfl

@[simp] theorem entries_withAttributes (a : Attributes) (n : Node) :
    (n.withAttributes a).entries = n.entries := by
  cases n <;> rfl

/-- New attributes have to bring a permission text that fits. -/
theorem Fits.withAttributes {n : Node} {a : Attributes} (h : n.Fits a.permissions) :
    (n.withAttributes a).Marked := by
  unfold Marked
  rw [attributes_withAttributes]
  exact h.congr (isDirectory_withAttributes a n) (isLink_withAttributes a n)

/-- All nodes from this one down are marked, and stand in order under their own names, for which
`P` holds. The name of the node itself is free. -/
inductive WellFormed (P : String → Prop) : Node → Prop
  | intro {n : Node} (marked : n.Marked) (sorted : Table.Sorted n.entries)
      (keyed : ∀ e ∈ n.entries, e.1 = e.2.name ∧ P e.1)
      (entry : ∀ e ∈ n.entries, WellFormed P e.2) : WellFormed P n

theorem WellFormed.marked {n : Node} (h : WellFormed P n) : n.Marked := by
  cases h
  assumption

theorem WellFormed.sorted {n : Node} (h : WellFormed P n) : Table.Sorted n.entries := by
  cases h
  assumption

theorem WellFormed.keyed {n : Node} (h : WellFormed P n) {e : String × Node}
    (he : e ∈ n.entries) : e.1 = e.2.name ∧ P e.1 := by
  cases h with
  | intro _ _ keyed _ => exact keyed e he

theorem WellFormed.entry {n : Node} (h : WellFormed P n) {e : String × Node}
    (he : e ∈ n.entries) : WellFormed P e.2 := by
  cases h with
  | intro _ _ _ entry => exact entry e he

theorem WellFormed.mono {Q : String → Prop} (hPQ : ∀ name, P name → Q name) {n : Node}
    (h : WellFormed P n) : WellFormed Q n := by
  induction h with
  | intro marked sorted keyed _ ih =>
    exact .intro marked sorted (fun e he => ⟨(keyed e he).1, hPQ _ (keyed e he).2⟩) ih

/-- A node without entries only has to be marked. -/
theorem Marked.wellFormed {n : Node} (h : n.Marked) (hn : n.entries = []) : WellFormed P n := by
  refine .intro h ?_ ?_ ?_
  · rw [hn]
    exact List.Pairwise.nil
  · simp [hn]
  · simp [hn]

theorem wellFormed_newFile (name owner group : String) (now : DateTime) (content : String) :
    WellFormed P (newFile name owner group now content) :=
  (marked_newFile name owner group now content).wellFormed rfl

theorem wellFormed_newDirectory (name owner group : String) (now : DateTime) :
    WellFormed P (newDirectory name owner group now) :=
  (marked_newDirectory name owner group now).wellFormed rfl

theorem wellFormed_newLink (name owner group : String) (now : DateTime) (target : String) :
    WellFormed P (newLink name owner group now target) :=
  (marked_newLink name owner group now target).wellFormed rfl

/-- Attributes with a permission text that fits do no harm. -/
theorem WellFormed.withAttributes {n : Node} (h : WellFormed P n) {a : Attributes}
    (ha : n.Fits a.permissions) : WellFormed P (n.withAttributes a) := by
  have hentries : (n.withAttributes a).entries = n.entries := entries_withAttributes a n
  refine .intro ha.withAttributes ?_ (fun e he => ?_) (fun e he => ?_)
  · rw [hentries]
    exact h.sorted
  · exact h.keyed (hentries ▸ he)
  · exact h.entry (hentries ▸ he)

/-- New attributes with the old permission text do no harm. -/
theorem WellFormed.updateAttributes {n : Node} (h : WellFormed P n) {f : Attributes → Attributes}
    (hf : ∀ a, (f a).permissions = a.permissions) : WellFormed P (n.updateAttributes f) := by
  have hfits : n.Fits (f n.attributes).permissions := by
    rw [hf]
    exact h.marked
  exact h.withAttributes hfits

theorem WellFormed.renamed {n : Node} (h : WellFormed P n) (name : String) :
    WellFormed P (n.renamed name) :=
  h.updateAttributes fun _ => rfl

theorem WellFormed.touch {n : Node} (h : WellFormed P n) (now : DateTime) :
    WellFormed P (n.touch now) :=
  h.updateAttributes fun _ => rfl

/-- What stands in a well-formed tree is well formed. -/
theorem WellFormed.get? {n k : Node} (h : WellFormed P n) {p : Path} (hk : n.get? p = some k) :
    WellFormed P k := by
  induction p generalizing n with
  | nil =>
    have he : n = k := Option.some.inj hk
    exact he ▸ h
  | cons name rest ih =>
    rw [get?_cons, Option.bind_eq_some_iff] at hk
    obtain ⟨entry, hentry, hk⟩ := hk
    exact ih (h.entry (Table.mem_of_get? hentry)) hk

/-- What stands at a path bears the last name of the path. -/
theorem WellFormed.name_eq {n k : Node} (h : WellFormed P n) {p : Path} {name : String}
    (hk : n.get? (p.child name) = some k) : k.name = name ∧ P name := by
  rw [get?_child, Option.bind_eq_some_iff] at hk
  obtain ⟨d, hd, hk⟩ := hk
  have hkeyed := (h.get? hd).keyed (Table.mem_of_get? hk)
  exact ⟨hkeyed.1.symm, hkeyed.2⟩

@[simp] theorem name_withEntry (e n : Node) : (withEntry e n).name = n.name := by
  cases n <;> rfl

@[simp] theorem name_withoutEntry (name : String) (n : Node) :
    (withoutEntry name n).name = n.name := by
  cases n <;> rfl

/-- A well-formed node is put in under its own name. -/
theorem WellFormed.withEntry {n e : Node} (h : WellFormed P n) (he : WellFormed P e)
    (hname : P e.name) : WellFormed P (withEntry e n) := by
  cases n with
  | file attributes content => exact h
  | link attributes target => exact h
  | directory attributes entries =>
    have hmarked : (directory attributes (Table.insert e.name e entries)).Marked :=
      Fits.congr h.marked rfl rfl
    refine .intro hmarked (h.sorted.insert e.name e) (fun x hx => ?_) (fun x hx => ?_)
    · rcases Table.mem_insert hx with rfl | hx
      · exact ⟨rfl, hname⟩
      · exact h.keyed hx
    · rcases Table.mem_insert hx with rfl | hx
      · exact he
      · exact h.entry hx

/-- An entry less leaves the others as they were. -/
theorem WellFormed.withoutEntry {n : Node} (h : WellFormed P n) (name : String) :
    WellFormed P (withoutEntry name n) := by
  cases n with
  | file attributes content => exact h
  | link attributes target => exact h
  | directory attributes entries =>
    have hmarked : (directory attributes (Table.erase name entries)).Marked :=
      Fits.congr h.marked rfl rfl
    exact .intro hmarked (h.sorted.erase name) (fun x hx => h.keyed (Table.mem_of_mem_erase hx))
      (fun x hx => h.entry (Table.mem_of_mem_erase hx))

/-- Where a change keeps names, so does it at any depth. -/
theorem name_modify {f : Node → Node} (hf : ∀ n, (f n).name = n.name) (n : Node) (p : Path) :
    (n.modify f p).name = n.name :=
  aspect_modify (fun _ _ _ => rfl) hf n p

/-- Where a change keeps links and other nodes what they are, so does it at any depth. -/
theorem isLink_modify {f : Node → Node} (hf : ∀ n, (f n).isLink = n.isLink) (n : Node)
    (p : Path) : (n.modify f p).isLink = n.isLink :=
  aspect_modify (fun _ _ _ => rfl) hf n p

/-- Where a node stands after a change of attributes one of its kind stood before. -/
theorem exists_of_get?_updateAttributes {f : Attributes → Attributes} {root n : Node} {p q : Path}
    (h : (root.modify (updateAttributes f) p).get? q = some n) :
    ∃ old, root.get? q = some old ∧ n.isDirectory = old.isDirectory ∧ n.isLink = old.isLink := by
  have hd : ∀ k : Node, (updateAttributes f k).isDirectory = k.isDirectory :=
    isDirectory_updateAttributes f
  have hl : ∀ k : Node, (updateAttributes f k).isLink = k.isLink := fun k => isLink_withAttributes _ k
  by_cases hw : p <+: q
  · obtain ⟨t, rfl⟩ := hw
    rw [get?_modify_append] at h
    obtain ⟨k, hk, h⟩ := Option.bind_eq_some_iff.mp h
    rw [get?_append, hk, Option.bind_some]
    cases t with
    | nil =>
      cases h
      exact ⟨k, rfl, hd k, hl k⟩
    | cons x r =>
      rw [get?_updateAttributes_cons] at h
      exact ⟨n, h, rfl, rfl⟩
  · by_cases ha : q <+: p
    · obtain ⟨t, rfl⟩ := ha
      rw [get?_modify_above] at h
      obtain ⟨k, hk, rfl⟩ := Option.map_eq_some_iff.mp h
      exact ⟨k, hk, isDirectory_modify hd k t, isLink_modify hl k t⟩
    · rw [get?_modify_apart _ root hw ha] at h
      exact ⟨n, h, rfl, rfl⟩

/-- A change in place that keeps the name of what it changes keeps the tree well formed. -/
theorem WellFormed.modify {f : Node → Node} (hname : ∀ n, (f n).name = n.name) {n : Node}
    {p : Path} (h : WellFormed P n)
    (hf : ∀ k, n.get? p = some k → WellFormed P k → WellFormed P (f k)) :
    WellFormed P (n.modify f p) := by
  induction p generalizing n with
  | nil => exact hf n rfl h
  | cons name rest ih =>
    cases n with
    | file attributes content => exact h
    | link attributes target => exact h
    | directory attributes entries =>
      simp only [Node.modify]
      cases hentry : Table.get? name entries with
      | none => exact h
      | some entry =>
        have hmem : (name, entry) ∈ entries := Table.mem_of_get? hentry
        have hnew : WellFormed P (entry.modify f rest) :=
          ih (h.entry hmem) fun k hk => hf k (by simp [Node.get?, hentry, hk])
        have hmarked :
            (directory attributes (Table.insert name (entry.modify f rest) entries)).Marked :=
          Fits.congr h.marked rfl rfl
        refine .intro hmarked (h.sorted.insert name _) (fun x hx => ?_) (fun x hx => ?_)
        · rcases Table.mem_insert hx with rfl | hx
          · exact ⟨by rw [name_modify hname]; exact (h.keyed hmem).1, (h.keyed hmem).2⟩
          · exact h.keyed hx
        · rcases Table.mem_insert hx with rfl | hx
          · exact hnew
          · exact h.entry hx

/-- A directory without a name, with a well-formed tree below it. -/
structure Sound (P : String → Prop) (root : Node) : Prop where
  wellFormed : WellFormed P root
  isDirectory : root.isDirectory = true
  name_eq : root.name = ""

variable {root root' n e : Node} {p parent : Path}

theorem Sound.mono {Q : String → Prop} (hPQ : ∀ name, P name → Q name) (h : Sound P root) :
    Sound Q root :=
  ⟨h.wellFormed.mono hPQ, h.isDirectory, h.name_eq⟩

theorem Sound.modify (h : Sound P root) {f : Node → Node} (hname : ∀ n, (f n).name = n.name)
    (hdir : ∀ n, (f n).isDirectory = n.isDirectory)
    (hf : ∀ k, root.get? p = some k → WellFormed P k → WellFormed P (f k)) :
    Sound P (root.modify f p) where
  wellFormed := h.wellFormed.modify hname hf
  isDirectory := by rw [isDirectory_modify hdir, h.isDirectory]
  name_eq := by rw [name_modify hname, h.name_eq]

theorem Sound.insert (h : Sound P root) (he : WellFormed P e) (hname : P e.name)
    (hi : root.insert parent e = .ok root') : Sound P root' := by
  obtain ⟨-, rfl⟩ := insert_eq_ok_iff.mp hi
  exact h.modify (name_withEntry e) (isDirectory_withEntry e) fun _ _ hk => hk.withEntry he hname

theorem Sound.remove (h : Sound P root) (hr : root.remove p = .ok (n, root')) :
    WellFormed P n ∧ Sound P root' := by
  obtain ⟨parent, name, -, hn, rfl⟩ := remove_eq_ok_iff.mp hr
  exact ⟨h.wellFormed.get? hn, h.modify (name_withoutEntry name) (isDirectory_withoutEntry name)
    fun _ _ hk => hk.withoutEntry name⟩

theorem Sound.updateAttributes (h : Sound P root) {f : Attributes → Attributes}
    (hname : ∀ a, (f a).name = a.name) (hf : ∀ a, (f a).permissions = a.permissions) (p : Path) :
    Sound P (root.modify (Node.updateAttributes f) p) := by
  refine h.modify (fun n => ?_) (isDirectory_updateAttributes f) fun k _ hk => hk.updateAttributes hf
  rw [name, Node.updateAttributes, attributes_withAttributes, hname, name]

theorem Sound.touch (h : Sound P root) (now : DateTime) (p : Path) :
    Sound P (root.modify (Node.touch now) p) :=
  h.updateAttributes (f := fun a => { a with modified := now }) (fun _ => rfl) (fun _ => rfl) p

/-- A file is stored under the last name of its path. -/
theorem Sound.store (h : Sound P root) (hp : ∀ name ∈ p, P name) {owner group : String}
    {now : DateTime} {compose : Option String → String}
    (hs : root.store p owner group now compose = .ok root') : Sound P root' := by
  unfold Node.store at hs
  cases hparent : root.parentDirectory p with
  | error fault => rw [hparent] at hs; cases hs
  | ok parent =>
    obtain ⟨⟨name, rfl⟩, -⟩ := parentDirectory_eq_ok_iff.mp hparent
    have hname : P name := hp name (by simp [Path.child])
    have hinsert : root.insert parent (newFile name owner group now (compose none)) = .ok root' →
        Sound P root' :=
      h.insert (wellFormed_newFile name owner group now _) hname
    simp only [hparent, Path.name?_child, Option.getD_some] at hs
    cases hn : root.get? (parent.child name) with
    | none =>
      simp only [hn] at hs
      exact hinsert hs
    | some n =>
      cases n with
      | link attributes target =>
        simp only [hn] at hs
        exact hinsert hs
      | directory attributes entries =>
        simp only [hn] at hs
        cases hs
      | file attributes old =>
        simp only [hn] at hs
        cases hs
        refine h.modify (fun k => ?_) (fun k => ?_) fun k hk hwf => ?_
        · cases k <;> rfl
        · cases k <;> rfl
        · cases hn.symm.trans hk
          exact Marked.wellFormed (Fits.congr hwf.marked rfl rfl) rfl

/-- Every directory keeps its entries in order and under their own names. -/
def InOrder (root : Node) : Prop :=
  ∀ p d, root.get? p = some d → Table.Sorted d.entries ∧ ∀ e ∈ d.entries, e.1 = e.2.name

theorem WellFormed.inOrder (h : WellFormed P n) : n.InOrder := fun _ _ hd =>
  ⟨(h.get? hd).sorted, fun _ he => ((h.get? hd).keyed he).1⟩

theorem InOrder.get? {d : Node} (h : root.InOrder) (hd : root.get? p = some d) : d.InOrder := by
  intro q k hk
  refine h (p ++ q) k ?_
  rw [get?_append, hd]
  exact hk

theorem InOrder.entry (h : n.InOrder) {e : String × Node} (he : e ∈ n.entries) : e.2.InOrder := by
  refine h.get? (p := [e.1]) ?_
  rw [get?_cons, (h [] n rfl).1.get?_of_mem he]
  rfl

/-- The entries of a directory are what stands at its children. -/
theorem InOrder.mem_entries {d : Node} (h : root.InOrder) (hd : root.get? p = some d)
    {name : String} : (name, n) ∈ d.entries ↔ root.get? (p.child name) = some n := by
  rw [get?_child, hd, Option.bind_some]
  exact ⟨(h p d hd).1.get?_of_mem, Table.mem_of_get?⟩

end PocketUnix.Node
