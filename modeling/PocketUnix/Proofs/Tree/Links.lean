import PocketUnix.Proofs.Tree.StoredText

/-!
# Chains of links

From a link one goes on to the path that its target names in the directory of the link, and from
there to the next one, as long as there is a link. The end of the chain is what is looked for: it
is found behind at most so many links, and nothing is found where the chain is longer, as every
circle of links is, or leads to nothing.
-/

namespace PocketUnix.Node

/-- A link stands at the first path, and its target, read in the directory of the link, is the
second one. -/
def LeadsTo (root : Node) (user : String) (p q : Path) : Prop :=
  ∃ attributes target, root.get? p = some (.link attributes target) ∧
    q = (p.parent?.getD []).resolve user target

/-- So many links lead from the first path to the second one, each to the next. -/
inductive Chain (root : Node) (user : String) : Nat → Path → Path → Prop
  | here (p : Path) : Chain root user 0 p p
  | link {k : Nat} {p next q : Path} (first : root.LeadsTo user p next)
      (rest : Chain root user k next q) : Chain root user (k + 1) p q

/-- A node stands at the path, and it is no link. -/
def EndsAt (root : Node) (q : Path) : Prop := ∃ n, root.get? q = some n ∧ n.isLink = false

variable {root : Node} {user : String} {p q r next : Path} {j k fuel : Nat}

theorem LeadsTo.linkAt (h : root.LeadsTo user p next) : root.LinkAt p := by
  obtain ⟨attributes, target, hlink, -⟩ := h
  exact ⟨attributes, target, hlink⟩

/-- A link has one target. -/
theorem LeadsTo.unique (h : root.LeadsTo user p q) (h' : root.LeadsTo user p next) : q = next := by
  obtain ⟨attributes, target, hlink, rfl⟩ := h
  obtain ⟨attributes', target', hlink', rfl⟩ := h'
  cases hlink.symm.trans hlink'
  rfl

theorem EndsAt.not_linkAt (h : root.EndsAt q) : ¬root.LinkAt q := by
  rintro ⟨attributes, target, hlink⟩
  obtain ⟨n, hn, hplain⟩ := h
  cases hlink.symm.trans hn
  cases hplain

theorem not_linkAt_of_none (h : root.get? q = none) : ¬root.LinkAt q := by
  rintro ⟨attributes, target, hlink⟩
  cases hlink.symm.trans h

/-- Nothing stands at a path, or the end of all chains to it, or a link. -/
theorem none_or_endsAt_or_leadsTo (root : Node) (user : String) (p : Path) :
    root.get? p = none ∨ root.EndsAt p ∨ ∃ next, root.LeadsTo user p next := by
  cases hn : root.get? p with
  | none => exact .inl rfl
  | some n =>
    cases n with
    | file attributes content => exact .inr (.inl ⟨_, hn, rfl⟩)
    | directory attributes entries => exact .inr (.inl ⟨_, hn, rfl⟩)
    | link attributes target => exact .inr (.inr ⟨_, attributes, target, hn, rfl⟩)

theorem Chain.trans (h : root.Chain user j p q) (h' : root.Chain user k q r) :
    root.Chain user (j + k) p r := by
  induction h with
  | here p => rwa [Nat.zero_add]
  | link first rest ih =>
    rw [Nat.add_right_comm]
    exact .link first (ih h')

/-- What leads back to itself does so however often it is gone through. -/
theorem Chain.repeated (h : root.Chain user k q q) (n : Nat) : root.Chain user (n * k) q q := by
  induction n with
  | zero =>
    rw [Nat.zero_mul]
    exact .here q
  | succ n ih =>
    rw [Nat.succ_mul]
    exact ih.trans h

/-- No chain begins where no link stands. -/
theorem Chain.eq_of_not_linkAt (h : root.Chain user k p q) (hp : ¬root.LinkAt p) :
    k = 0 ∧ q = p := by
  cases h with
  | here => exact ⟨rfl, rfl⟩
  | link first rest => exact absurd first.linkAt hp

/-- There is one way to go only: a chain that goes on to where no link stands passes the ends of
all other ones. -/
theorem Chain.exists_rest (h : root.Chain user k p r) (h' : root.Chain user j p q)
    (hq : ¬root.LinkAt q) : ∃ i, j = k + i ∧ root.Chain user i r q := by
  induction h generalizing j with
  | here p => exact ⟨j, (Nat.zero_add j).symm, h'⟩
  | link first rest ih =>
    cases h' with
    | here => exact absurd first.linkAt hq
    | link first' rest' =>
      obtain rfl := first.unique first'
      obtain ⟨i, rfl, hrest⟩ := ih rest'
      exact ⟨i, Nat.add_right_comm _ i 1, hrest⟩

/-- A chain that is not too long ends at the path. -/
def Found (root : Node) (user : String) (fuel : Nat) (p q : Path) : Prop :=
  ∃ k ≤ fuel, root.Chain user k p q ∧ root.EndsAt q

/-- A chain leads to nothing or is too long. -/
def Lost (root : Node) (user : String) (fuel : Nat) (p : Path) : Prop :=
  (∃ k q, root.Chain user k p q ∧ root.get? q = none) ∨
    ∃ k q, fuel < k ∧ root.Chain user k p q

theorem Found.link (h : root.LeadsTo user p next) (hfound : root.Found user fuel next q) :
    root.Found user (fuel + 1) p q := by
  obtain ⟨k, hk, hchain, hend⟩ := hfound
  exact ⟨k + 1, Nat.succ_le_succ hk, .link h hchain, hend⟩

theorem Lost.link (h : root.LeadsTo user p next) (hlost : root.Lost user fuel next) :
    root.Lost user (fuel + 1) p := by
  rcases hlost with ⟨k, q, hchain, hnone⟩ | ⟨k, q, hk, hchain⟩
  · exact .inl ⟨k + 1, q, .link h hchain, hnone⟩
  · exact .inr ⟨k + 1, q, Nat.succ_lt_succ hk, .link h hchain⟩

theorem Found.unique (h : root.Found user fuel p q) (h' : root.Found user fuel p r) : q = r := by
  obtain ⟨k, -, hchain, hend⟩ := h
  obtain ⟨j, -, hchain', hend'⟩ := h'
  obtain ⟨i, -, hrest⟩ := hchain'.exists_rest hchain hend.not_linkAt
  exact (hrest.eq_of_not_linkAt hend'.not_linkAt).2

/-- A chain that ends is not lost: any other chain from the same path is a part of it. -/
theorem Found.not_lost (h : root.Found user fuel p q) : ¬root.Lost user fuel p := by
  obtain ⟨j, hj, hchain, hend⟩ := h
  rintro (⟨k, r, hother, hnone⟩ | ⟨k, r, hk, hother⟩)
  · obtain ⟨i, -, hrest⟩ := hother.exists_rest hchain hend.not_linkAt
    obtain ⟨-, rfl⟩ := hrest.eq_of_not_linkAt (not_linkAt_of_none hnone)
    obtain ⟨n, hn, -⟩ := hend
    cases hn.symm.trans hnone
  · obtain ⟨i, rfl, -⟩ := hother.exists_rest hchain hend.not_linkAt
    omega

theorem lost_of_none (h : root.get? p = none) (user : String) (fuel : Nat) :
    root.followLinks user fuel p = none ∧ root.Lost user fuel p :=
  ⟨followLinks_of_none h user fuel, .inl ⟨0, p, .here p, h⟩⟩

theorem EndsAt.found (h : root.EndsAt p) (user : String) (fuel : Nat) :
    root.followLinks user fuel p = some p ∧ root.Found user fuel p p := by
  obtain ⟨n, hn, hplain⟩ := id h
  exact ⟨followLinks_of_not_link hn hplain user fuel, 0, Nat.zero_le fuel, .here p, h⟩

/-- Going from link to link one comes to the end of the chain or gets lost. -/
theorem found_or_lost (root : Node) (user : String) (fuel : Nat) (p : Path) :
    (∃ q, root.followLinks user fuel p = some q ∧ root.Found user fuel p q) ∨
      root.followLinks user fuel p = none ∧ root.Lost user fuel p := by
  induction fuel generalizing p with
  | zero =>
    rcases none_or_endsAt_or_leadsTo root user p with hnone | hend | ⟨next, hnext⟩
    · exact .inr (lost_of_none hnone user 0)
    · exact .inl ⟨p, hend.found user 0⟩
    · obtain ⟨attributes, target, hlink⟩ := hnext.linkAt
      have hlost : root.Lost user 0 p := .inr ⟨1, next, Nat.one_pos, .link hnext (.here next)⟩
      exact .inr ⟨followLinks_zero hlink user, hlost⟩
  | succ fuel ih =>
    rcases none_or_endsAt_or_leadsTo root user p with hnone | hend | ⟨next, hnext⟩
    · exact .inr (lost_of_none hnone user _)
    · exact .inl ⟨p, hend.found user _⟩
    · obtain ⟨attributes, target, hlink, rfl⟩ := id hnext
      rw [followLinks_succ hlink]
      rcases ih _ with ⟨q, hq, hfound⟩ | ⟨hnone, hlost⟩
      · exact .inl ⟨q, hq, hfound.link hnext⟩
      · exact .inr ⟨hnone, hlost.link hnext⟩

/-- What is found is the end of a chain that is not too long. -/
theorem followLinks_eq_some_iff :
    root.followLinks user fuel p = some q ↔ root.Found user fuel p q := by
  rcases found_or_lost root user fuel p with ⟨r, hr, hfound⟩ | ⟨hnone, hlost⟩
  · rw [hr, Option.some.injEq]
    exact ⟨fun he => he ▸ hfound, hfound.unique⟩
  · rw [hnone]
    exact ⟨nofun, fun h => absurd hlost h.not_lost⟩

/-- Nothing is found just where the chain leads to nothing or is too long. -/
theorem followLinks_eq_none_iff :
    root.followLinks user fuel p = none ↔ root.Lost user fuel p := by
  rcases found_or_lost root user fuel p with ⟨r, hr, hfound⟩ | ⟨hnone, hlost⟩
  · rw [hr]
    exact ⟨nofun, fun h => absurd h hfound.not_lost⟩
  · exact ⟨fun _ => hlost, fun _ => hnone⟩

/-- Along a circle of links one comes to no end. -/
theorem followLinks_of_circle (h : root.Chain user j p q) (hcircle : root.Chain user k q q)
    (hk : 0 < k) (fuel : Nat) : root.followLinks user fuel p = none := by
  have hround : root.Chain user (j + (fuel + 1) * k) p q := h.trans (hcircle.repeated (fuel + 1))
  have hlong : fuel < j + (fuel + 1) * k := by
    have hmany : fuel + 1 ≤ (fuel + 1) * k := Nat.le_mul_of_pos_right _ hk
    omega
  exact followLinks_eq_none_iff.mpr (.inr ⟨_, q, hlong, hround⟩)

/-- What is read at a path, from what is found behind its links. -/
inductive ReadThrough (root : Node) (user : String) (p : Path) : Except TreeFault String → Prop
  | file {q : Path} {attributes : Attributes} {content : String}
      (found : root.resolveLinks user p = some q)
      (node : root.get? q = some (.file attributes content)) : ReadThrough root user p (.ok content)
  | directory {q : Path} {attributes : Attributes} {entries : List (String × Node)}
      (found : root.resolveLinks user p = some q)
      (node : root.get? q = some (.directory attributes entries)) :
      ReadThrough root user p (.error .isADirectory)
  | missing (lost : root.resolveLinks user p = none) : ReadThrough root user p (.error .missing)

/-- Behind its links there is a file or a directory, or the links lead nowhere. -/
theorem readThrough_readText (root : Node) (user : String) (p : Path) :
    root.ReadThrough user p (root.readText user p) := by
  cases hfound : root.resolveLinks user p with
  | none =>
    rw [readText, hfound, Option.bind_none]
    exact .missing hfound
  | some q =>
    obtain ⟨-, -, -, n, hn, hplain⟩ := followLinks_eq_some_iff.mp hfound
    rw [readText, hfound, Option.bind_some, hn]
    cases n with
    | file attributes content => exact .file hfound hn
    | directory attributes entries => exact .directory hfound hn
    | link attributes target => cases hplain

/-- From every path one comes to the end of its chain of links if there are eight of them at most,
and to nothing where the chain leads to nothing, is longer or goes in a circle. Text is read from
the file at the end, and there never is a link. -/
theorem resolveLinks_chain (root : Node) (user : String) (p : Path) :
    (∀ q, root.resolveLinks user p = some q ↔
        ∃ k ≤ 8, root.Chain user k p q ∧ ∃ n, root.get? q = some n ∧ n.isLink = false) ∧
      (root.resolveLinks user p = none ↔
        (∃ k q, root.Chain user k p q ∧ root.get? q = none) ∨
          ∃ k q, 8 < k ∧ root.Chain user k p q) ∧
      (∀ j k q, root.Chain user j p q → root.Chain user k q q → 0 < k →
        root.resolveLinks user p = none) ∧
      root.ReadThrough user p (root.readText user p) :=
  ⟨fun _ => followLinks_eq_some_iff, followLinks_eq_none_iff,
    fun _ _ _ h hcircle hk => followLinks_of_circle h hcircle hk linkLimit,
    readThrough_readText root user p⟩

/-- A directory with nine links in a row, of which the last one leads to a file, and with two links
that lead to each other. -/
def linkRow (now : DateTime) : Node :=
  [("a", "b"), ("b", "/c"), ("c", "./d"), ("d", "e"), ("e", "../f"), ("f", "g"), ("g", "x/../h"),
      ("h", "i"), ("i", "file"), ("y", "z"), ("z", "y")].foldl
    (fun n (name, target) => withEntry (newLink name "user" "user" now target) n)
    (withEntry (newFile "file" "user" "user" now "text") (newDirectory "" "root" "root" now))

/-- Eight links in a row are followed, nine are not. -/
theorem resolveLinks_chain_row :
    let root := linkRow ⟨⟨2024, 1, 1⟩, 0, 0⟩
    (root.Chain "user" 8 ["b"] ["file"] ∧ root.resolveLinks "user" ["b"] = some ["file"]) ∧
      (root.Chain "user" 9 ["a"] ["file"] ∧ root.resolveLinks "user" ["a"] = none) ∧
      root.Chain "user" 2 ["y"] ["y"] ∧ root.resolveLinks "user" ["y"] = none := by
  intro root
  have hlink (name target next : String)
      (h : (root.get? [name]).bind target? = some target ∧
        Path.resolve [] "user" target = [next]) : root.LeadsTo "user" [name] [next] := by
    obtain ⟨hname, hnext⟩ := h
    obtain ⟨n, hn, htarget⟩ := Option.bind_eq_some_iff.mp hname
    cases n with
    | file attributes content => cases htarget
    | directory attributes entries => cases htarget
    | link attributes target' =>
      cases htarget
      exact ⟨attributes, target, hn, hnext.symm⟩
  have height : root.Chain "user" 8 ["b"] ["file"] :=
    .link (hlink "b" "/c" "c" (by decide +kernel)) <|
    .link (hlink "c" "./d" "d" (by decide +kernel)) <|
    .link (hlink "d" "e" "e" (by decide +kernel)) <|
    .link (hlink "e" "../f" "f" (by decide +kernel)) <|
    .link (hlink "f" "g" "g" (by decide +kernel)) <|
    .link (hlink "g" "x/../h" "h" (by decide +kernel)) <|
    .link (hlink "h" "i" "i" (by decide +kernel)) <|
    .link (hlink "i" "file" "file" (by decide +kernel)) <|
    .here ["file"]
  have hnine : root.Chain "user" 9 ["a"] ["file"] :=
    .link (hlink "a" "b" "b" (by decide +kernel)) height
  have hcircle : root.Chain "user" 2 ["y"] ["y"] :=
    .link (hlink "y" "z" "z" (by decide +kernel)) <|
    .link (hlink "z" "y" "y" (by decide +kernel)) <|
    .here ["y"]
  have hfile : (root.get? ["file"]).map isLink = some false := by decide +kernel
  obtain ⟨n, hn, hplain⟩ := Option.map_eq_some_iff.mp hfile
  refine ⟨⟨height, ?_⟩, ⟨hnine, ?_⟩, hcircle, ?_⟩
  · exact ((resolveLinks_chain root "user" ["b"]).1 _).mpr ⟨8, Nat.le_refl 8, height, n, hn, hplain⟩
  · exact (resolveLinks_chain root "user" ["a"]).2.1.mpr (.inr ⟨9, _, by decide, hnine⟩)
  · exact (resolveLinks_chain root "user" ["y"]).2.2.1 0 2 _ (.here _) hcircle (by decide)

end PocketUnix.Node
