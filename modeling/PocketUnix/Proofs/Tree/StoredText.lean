import PocketUnix.Proofs.Tree.Bare

/-!
# Text that is stored and read

Readers follow links to a file, while text is stored at the path itself, where a link gives way to
a file of its own. So text that is stored is what is read behind it, but text that is appended
where a link stands takes the place of the text to which the link led.
-/

namespace PocketUnix.Node

variable {root root' : Node} {p : Path} {user owner group old content : String} {now : DateTime}
  {compose : Option String → String} {attributes : Attributes}

/-- A link stands at the path. -/
def LinkAt (root : Node) (p : Path) : Prop :=
  ∃ attributes target, root.get? p = some (.link attributes target)

/-- The file with another content. -/
def rewritten (now : DateTime) (content : String) : Node → Node
  | .file attributes _ => .file { attributes with modified := now } content
  | n => n

/-- A file is changed where it stands. Otherwise a new one is put into the directory, where a link
stands at most. -/
theorem store_ok (h : root.store p owner group now compose = .ok root') :
    ∃ parent name, p = parent.child name ∧
      ((∃ attributes old, root.get? p = some (.file attributes old) ∧
          root' = root.modify (rewritten now (compose (some old))) p) ∨
        (root.get? p = none ∨ root.LinkAt p) ∧
          root.insert parent (newFile name owner group now (compose none)) = .ok root') := by
  cases hparent : root.parentDirectory p with
  | error fault =>
    rw [store, hparent] at h
    cases h
  | ok parent =>
    obtain ⟨⟨name, rfl⟩, -⟩ := parentDirectory_eq_ok_iff.mp hparent
    refine ⟨parent, name, rfl, ?_⟩
    simp only [store, hparent, Path.name?_child, Option.getD_some] at h
    cases hn : root.get? (parent.child name) with
    | none =>
      rw [hn] at h
      exact .inr ⟨.inl rfl, h⟩
    | some n =>
      rw [hn] at h
      cases n with
      | link attributes target => exact .inr ⟨.inr ⟨attributes, target, hn⟩, h⟩
      | directory attributes entries => cases h
      | file attributes old =>
        cases h
        exact .inl ⟨attributes, old, rfl, rfl⟩

/-- A file keeps its attributes but for the time. -/
theorem get?_store_of_file (h : root.store p owner group now compose = .ok root')
    (hfile : root.get? p = some (.file attributes old)) :
    root'.get? p = some (.file { attributes with modified := now } (compose (some old))) := by
  obtain ⟨parent, name, rfl, ⟨attributes', old', hfile', rfl⟩ | ⟨hfree, -⟩⟩ := store_ok h
  · rw [hfile] at hfile'
    cases hfile'
    have hget := get?_modify_append (rewritten now (compose (some old))) root (parent.child name) []
    rw [List.append_nil, hfile] at hget
    exact hget
  · rcases hfree with hnone | ⟨link, target, hlink⟩
    · rw [hfile] at hnone
      cases hnone
    · rw [hfile] at hlink
      cases hlink

/-- At the path stands a file, whose content is composed from that of the file before it. -/
theorem get?_store (h : root.store p owner group now compose = .ok root') :
    ∃ attributes, root'.get? p =
      some (.file attributes (compose ((root.get? p).bind content?))) := by
  obtain ⟨parent, name, rfl, ⟨attributes, old, hfile, -⟩ | ⟨hfree, hinsert⟩⟩ := store_ok h
  · rw [hfile]
    exact ⟨_, get?_store_of_file h hfile⟩
  · have hget := get?_insert_self hinsert
    rcases hfree with hnone | ⟨attributes, target, hlink⟩
    · rw [hnone]
      exact ⟨_, hget⟩
    · rw [hlink]
      exact ⟨_, hget⟩

/-- Nothing stands below what is no directory. -/
theorem bareAt_below (h : root.isDirectoryAt p = false) (x : String) (r : Path) :
    root.bareAt (p ++ x :: r) = none := by
  rw [bareAt_eq_none_iff, Bool.eq_false_iff]
  intro hbelow
  rw [isDirectoryAt_of_below hbelow] at h
  cases h

theorem not_directory_of_store (h : root.store p owner group now compose = .ok root') :
    root.isDirectoryAt p = false := by
  obtain ⟨attributes, hfile⟩ := get?_store h
  rw [← isDirectoryAt_store h p, isDirectoryAt, hfile]
  rfl

/-- Storing is not seen at any other path, but for the entries of directories. -/
theorem bareAt_store (h : root.store p owner group now compose = .ok root') {q : Path}
    (hq : q ≠ p) : root'.bareAt q = root.bareAt q := by
  have hplain := not_directory_of_store h
  by_cases hw : p <+: q
  · have hplain' : root'.isDirectoryAt p = false := by rw [isDirectoryAt_store h, hplain]
    obtain ⟨t, rfl⟩ := hw
    cases t with
    | nil => exact absurd (List.append_nil p) hq
    | cons x r => rw [bareAt_below hplain, bareAt_below hplain']
  · obtain ⟨parent, name, rfl, ⟨attributes, old, hfile, rfl⟩ | ⟨-, hinsert⟩⟩ := store_ok h
    · by_cases ha : q <+: parent.child name
      · obtain ⟨t, ht⟩ := ha
        cases t with
        | nil => exact absurd (List.append_nil q ▸ ht) hq
        | cons x r =>
          rw [← ht, bareAt, get?_modify_above, bareAt, Option.map_map]
          congr 1
          funext n
          exact bare_modify_cons _ n x r
      · rw [bareAt, get?_modify_apart _ root hw ha, bareAt]
    · exact bareAt_insert hinsert hw

/-- Storing is not seen at any path that does not lead to the file. -/
theorem get?_store_elsewhere (h : root.store p owner group now compose = .ok root') {q : Path}
    (hq : ¬q <+: p) : root'.get? q = root.get? q := by
  by_cases hw : p <+: q
  · obtain ⟨t, rfl⟩ := hw
    cases t with
    | nil => simp at hq
    | cons x r =>
      have hnone := bareAt_below (not_directory_of_store h) x r
      have hnone' : root'.bareAt (p ++ x :: r) = none := by rw [bareAt_store h (by simp), hnone]
      simp only [bareAt, Option.map_eq_none_iff] at hnone hnone'
      rw [hnone, hnone']
  · obtain ⟨parent, name, rfl, ⟨attributes, old, -, rfl⟩ | ⟨-, hinsert⟩⟩ := store_ok h
    · exact get?_modify_apart _ root hw hq
    · exact get?_insert_apart hinsert ⟨hw, hq⟩

/-- The path is in a directory, and no directory stands there. -/
def Storable (root : Node) (p : Path) : Prop :=
  ∃ parent name, p = parent.child name ∧ root.isDirectoryAt parent = true ∧
    root.isDirectoryAt p = false

/-- Where a file was stored, one could be. -/
theorem storable_of_store (h : root.store p owner group now compose = .ok root') :
    root.Storable p := by
  have hplain := not_directory_of_store h
  cases hparent : root.parentDirectory p with
  | error fault =>
    rw [store, hparent] at h
    cases h
  | ok parent =>
    obtain ⟨⟨name, rfl⟩, hdirectory⟩ := parentDirectory_eq_ok_iff.mp hparent
    exact ⟨parent, name, rfl, hdirectory, hplain⟩

theorem Storable.exists_store (h : root.Storable p) (owner group : String) (now : DateTime)
    (compose : Option String → String) :
    ∃ root', root.store p owner group now compose = .ok root' := by
  obtain ⟨parent, name, rfl, hdirectory, hplain⟩ := h
  have hparent := parentDirectory_eq_ok_iff.mpr ⟨⟨name, rfl⟩, hdirectory⟩
  obtain ⟨root', hstore, -⟩ := store_of_parentDirectory hparent hplain owner group now compose
  exact ⟨root', hstore⟩

/-- In a tree with a directory at its root, text can be stored where a file is. -/
theorem storable_of_file (hroot : root.isDirectory = true)
    (hfile : root.get? p = some (.file attributes content)) : root.Storable p := by
  have hplain : root.isDirectoryAt p = false := by
    rw [isDirectoryAt, hfile]
    rfl
  rcases List.eq_nil_or_concat p with rfl | ⟨parent, name, rfl⟩
  · rw [get?_nil, Option.some.injEq] at hfile
    rw [hfile] at hroot
    cases hroot
  · rw [List.concat_eq_append] at hfile hplain ⊢
    have hchild : root.contains (parent ++ [name]) = true := by
      rw [contains, hfile]
      rfl
    exact ⟨parent, name, rfl, isDirectoryAt_of_child hchild, hplain⟩

section Links

variable {n : Node} {q : Path} {target : String}

theorem followLinks_of_none (h : root.get? q = none) (user : String) (fuel : Nat) :
    root.followLinks user fuel q = none := by
  rw [followLinks, h]

/-- What is no link is what is looked for. -/
theorem followLinks_of_not_link (h : root.get? q = some n) (hn : n.isLink = false) (user : String)
    (fuel : Nat) : root.followLinks user fuel q = some q := by
  rw [followLinks, h]
  cases n with
  | link attributes target => cases hn
  | file attributes content => rfl
  | directory attributes entries => rfl

theorem followLinks_zero (h : root.get? q = some (.link attributes target)) (user : String) :
    root.followLinks user 0 q = none := by
  rw [followLinks, h]

theorem followLinks_succ (h : root.get? q = some (.link attributes target)) (user : String)
    (fuel : Nat) : root.followLinks user (fuel + 1) q =
      root.followLinks user fuel ((q.parent?.getD []).resolve user target) := by
  rw [followLinks, h]

end Links

@[simp] theorem isLink_bare (n : Node) : n.bare.isLink = n.isLink := by
  cases n <;> rfl

/-- Storing over a file leaves all links as they are. -/
theorem get?_store_of_link (h : root.store p owner group now compose = .ok root')
    (hfile : root.get? p = some (.file attributes old)) {q : Path} {target : String}
    {link : Attributes} (hlink : root.get? q = some (.link link target)) :
    root'.get? q = some (.link link target) := by
  have hqp : q ≠ p := by
    rintro rfl
    rw [hfile] at hlink
    cases hlink
  exact get?_of_bareAt_eq hlink rfl (bareAt_store h hqp)

/-- Where there is no link, storing over a file puts none. -/
theorem followLinks_store_of_not_linkAt (h : root.store p owner group now compose = .ok root')
    (hfile : root.get? p = some (.file attributes old)) {q : Path} (hq : ¬root.LinkAt q)
    (user : String) (fuel : Nat) :
    root'.followLinks user fuel q = root.followLinks user fuel q := by
  by_cases hqp : q = p
  · subst hqp
    rw [followLinks_of_not_link hfile rfl, followLinks_of_not_link (get?_store_of_file h hfile) rfl]
  · have hbare := bareAt_store h hqp
    cases hn : root.get? q with
    | none =>
      rw [bareAt, bareAt, hn, Option.map_none, Option.map_eq_none_iff] at hbare
      rw [followLinks_of_none hn, followLinks_of_none hbare]
    | some n =>
      have hplain : n.isLink = false := by
        cases n with
        | link attributes target => exact absurd ⟨attributes, target, hn⟩ hq
        | file attributes content => rfl
        | directory attributes entries => rfl
      rw [bareAt, bareAt, hn, Option.map_some] at hbare
      obtain ⟨n', hn', hsame⟩ := Option.map_eq_some_iff.mp hbare
      have hplain' : n'.isLink = false := by rw [← isLink_bare, hsame, isLink_bare, hplain]
      rw [followLinks_of_not_link hn hplain, followLinks_of_not_link hn' hplain']

/-- Storing over a file leads no link to another place. -/
theorem followLinks_store (h : root.store p owner group now compose = .ok root')
    (hfile : root.get? p = some (.file attributes old)) (user : String) (fuel : Nat) (q : Path) :
    root'.followLinks user fuel q = root.followLinks user fuel q := by
  induction fuel generalizing q with
  | zero =>
    by_cases hq : root.LinkAt q
    · obtain ⟨link, target, hlink⟩ := hq
      rw [followLinks_zero hlink, followLinks_zero (get?_store_of_link h hfile hlink)]
    · exact followLinks_store_of_not_linkAt h hfile hq user 0
  | succ fuel ih =>
    by_cases hq : root.LinkAt q
    · obtain ⟨link, target, hlink⟩ := hq
      rw [followLinks_succ hlink, followLinks_succ (get?_store_of_link h hfile hlink), ih]
    · exact followLinks_store_of_not_linkAt h hfile hq user (fuel + 1)

theorem resolveLinks_store (h : root.store p owner group now compose = .ok root')
    (hfile : root.get? p = some (.file attributes old)) (user : String) (q : Path) :
    root'.resolveLinks user q = root.resolveLinks user q :=
  followLinks_store h hfile user linkLimit q

theorem readText_of_file (h : root.get? p = some (.file attributes content)) (user : String) :
    root.readText user p = .ok content := by
  have hlinks : root.resolveLinks user p = some p := followLinks_of_not_link h rfl user linkLimit
  simp only [readText, hlinks, Option.bind_some, h]

/-- Where text is read, there is a file with that text or a link. -/
theorem file_or_link_of_readText (h : root.readText user p = .ok old) :
    (∃ attributes, root.get? p = some (.file attributes old)) ∨ root.LinkAt p := by
  cases hn : root.get? p with
  | none =>
    have hlinks : root.resolveLinks user p = none := followLinks_of_none hn user linkLimit
    simp [readText, hlinks] at h
  | some n =>
    cases n with
    | link attributes target => exact .inr ⟨attributes, target, hn⟩
    | directory attributes entries =>
      have hlinks : root.resolveLinks user p = some p :=
        followLinks_of_not_link hn rfl user linkLimit
      simp [readText, hlinks, hn] at h
    | file attributes text =>
      have htext := readText_of_file hn user
      rw [h, Except.ok.injEq] at htext
      exact .inl ⟨attributes, htext ▸ rfl⟩

/-- Text in front of another one cannot be left out, not even with the line end behind it. -/
theorem append_newline_ne (old content : String) : old ++ "\n" ++ content ≠ content := by
  intro h
  have hlength := congrArg String.length h
  simp only [String.length_append] at hlength
  have hnewline : "\n".length = 1 := by decide
  omega

/-- Whoever could read a text at a path reads it with the appended text on a line behind it, unless
there was some text and it was read through a link: then the appended text is all that is read. -/
theorem readText_append (hread : root.readText user p = .ok old)
    (happend : root.append p owner group now content = .ok root') :
    (root'.readText user p = .ok (if old = "" then content else old ++ "\n" ++ content) ↔
        old = "" ∨ ¬root.LinkAt p) ∧
      (root.LinkAt p → root'.readText user p = .ok content) := by
  obtain ⟨attributes, hstored⟩ := get?_store happend
  have hnow := readText_of_file hstored user
  rcases file_or_link_of_readText hread with ⟨kept, hfile⟩ | hlinked
  · have hunlinked : ¬root.LinkAt p := by
      rintro ⟨link, target, hlink⟩
      rw [hfile] at hlink
      cases hlink
    rw [hfile] at hnow
    exact ⟨⟨fun _ => .inr hunlinked, fun _ => hnow⟩, fun h => absurd h hunlinked⟩
  · obtain ⟨link, target, hlink⟩ := hlinked
    have hreplaced : root'.readText user p = .ok content := by
      rw [hlink] at hnow
      exact hnow
    refine ⟨?_, fun _ => hreplaced⟩
    rw [hreplaced, Except.ok.injEq]
    by_cases hold : old = ""
    · simp [hold]
    · simp only [hold, if_false, false_or]
      constructor
      · intro h
        exact absurd h.symm (append_newline_ne old content)
      · intro h
        exact absurd ⟨link, target, hlink⟩ h

/-- A directory with a file and a link to it. -/
def linkedPair (now : DateTime) : Node :=
  withEntry (newLink "link" "user" "user" now "file")
    (withEntry (newFile "file" "user" "user" now "old") (newDirectory "" "root" "root" now))

/-- The link reads as the file until something is appended to it. -/
theorem readText_append_link :
    let now : DateTime := ⟨⟨2024, 1, 1⟩, 0, 0⟩
    ∃ root, (linkedPair now).readText "user" ["link"] = .ok "old" ∧
      (linkedPair now).append ["link"] "user" "user" now "new" = .ok root ∧
      root.readText "user" ["link"] = .ok "new" := by
  intro now
  have hlink : (linkedPair now).get? ["link"] = some (newLink "link" "user" "user" now "file") := by
    cbv
  have hread : (linkedPair now).readText "user" ["link"] = .ok "old" := by cbv
  have hparent : (linkedPair now).parentDirectory ["link"] = .ok [] := rfl
  have hplain : (linkedPair now).isDirectoryAt ["link"] = false := by rw [isDirectoryAt, hlink]; rfl
  obtain ⟨root, happend, -⟩ : ∃ root, (linkedPair now).append ["link"] "user" "user" now "new" =
      .ok root ∧ ∀ q, root.isDirectoryAt q = (linkedPair now).isDirectoryAt q :=
    store_of_parentDirectory hparent hplain "user" "user" now _
  exact ⟨root, hread, happend, (readText_append hread happend).2 ⟨_, _, hlink⟩⟩

end PocketUnix.Node
