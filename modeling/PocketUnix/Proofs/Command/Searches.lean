import PocketUnix.Proofs.Command.Walks
import PocketUnix.Proofs.Session.SoundSessions
import PocketUnix.Proofs.Tree.Preorder
import PocketUnix.Proofs.Tree.WrittenPaths

/-!
# What `find` finds

Tests may stand on both sides of the start, in any order, and the last one of each sort counts.
Every line that is printed is read back as the path of the node that it stands for, in whatever way
the start is written: as the root, with slashes behind it, with dots or with a tilde.
-/

namespace PocketUnix

namespace Walk

/-- What is asked of the nodes. -/
inductive Test where
  | name (pattern : NamePattern)
  | kind (kind : Kind)
  | maxDepth (most : Nat)

/-- The words for a test. -/
inductive Test.Spelled : Test → List String → Prop
  | name (pattern : String) : Spelled (.name ⟨pattern, false⟩) ["-name", pattern]
  | foldedName (pattern : String) : Spelled (.name ⟨pattern, true⟩) ["-iname", pattern]
  | kind {value : String} {kind : Kind} (h : value.toList.head?.bind Kind.ofLetter? = some kind) :
      Spelled (.kind kind) ["-type", value]
  | maxDepth {value : String} {most : Nat} (h : Number.read? Number.wordLimit value = some most) :
      Spelled (.maxDepth most) ["-maxdepth", value]

/-- The search with a test, in place of an earlier one of its sort. -/
def Search.put (s : Search) : Test → Search
  | .name pattern => { s with name := some pattern }
  | .kind kind => { s with kind := some kind }
  | .maxDepth most => { s with maxDepth := some most }

section Tests

variable {s : Search} {test : Test} {tests : List Test} {words : List String}
  {spelled : List (List String)}

/-- A test is read from its words and goes in the place of an earlier one. -/
theorem Search.read_test (h : test.Spelled words) (s : Search) (rest : List String) :
    s.read (words ++ rest) = (s.put test).read rest := by
  cases h with
  | name pattern =>
    rw [List.cons_append, List.singleton_append, read.eq_def]
    rfl
  | foldedName pattern =>
    rw [List.cons_append, List.singleton_append, read.eq_def]
    rfl
  | kind h =>
    rw [List.cons_append, List.singleton_append, read.eq_def]
    simp [h, put]
  | maxDepth h =>
    rw [List.cons_append, List.singleton_append, read.eq_def]
    simp [h, put]

theorem Search.read_tests (h : List.Forall₂ Test.Spelled tests spelled) (s : Search)
    (rest : List String) :
    s.read (spelled.flatten ++ rest) = (tests.foldl put s).read rest := by
  induction h generalizing s with
  | nil => rfl
  | cons hfirst _ ih =>
    rw [List.flatten_cons, List.append_assoc, read_test hfirst, ih, List.foldl_cons]

theorem Search.foldl_put_start (tests : List Test) (s : Search) (start : Option String) :
    { tests.foldl put s with start } = tests.foldl put { s with start } := by
  induction tests generalizing s with
  | nil => rfl
  | cons test tests ih =>
    rw [List.foldl_cons, List.foldl_cons, ih]
    cases test <;> rfl

/-- The start may stand anywhere between the tests, or nowhere. -/
theorem Search.read_all {before after : List Test} {words words' : List (List String)}
    (hbefore : List.Forall₂ Test.Spelled before words)
    (hafter : List.Forall₂ Test.Spelled after words') {start : Option String}
    (hstart : ∀ label ∈ start, label.toList.head? ≠ some '-') :
    Search.read {} (words.flatten ++ (start.toList ++ words'.flatten)) =
      .ok ((before ++ after).foldl put { start }) := by
  have hnone : (before.foldl put {}).start = none := by
    rw [← Search.foldl_put_start before {} none]
  have hrest : Search.read (before.foldl put {}) (start.toList ++ words'.flatten) =
      Search.read { before.foldl put {} with start } words'.flatten := by
    cases start with
    | none => rw [foldl_put_start]; rfl
    | some label => exact read_start (hstart label rfl) hnone words'.flatten
  have hend := read_tests hafter { before.foldl put {} with start } []
  rw [List.append_nil] at hend
  rw [read_tests hbefore, hrest, hend, foldl_put_start, List.foldl_append]
  rfl

end Tests

/-- The line for a node that is found some names further than a start. -/
def shown (label : String) (p : Path) : String := if p = [] then label else shownBelow label p

/-- What a start may be: it is not blank, takes one line and is no test. -/
structure Start (label : String) : Prop where
  notBlank : Text.isBlank label = false
  oneLine : '\n' ∉ label.toList
  undashed : label.toList.head? ≠ some '-'

section Lines

variable {label : String} {p : Path}

/-- In front of the paths below it, a start has no slashes at its end. -/
theorem exists_base (hroot : label ≠ "/") : ∃ (front : List Char) (count : Nat),
    label.toList = front ++ List.replicate count '/' ∧ base label = .ofList front ∧
      base label ≠ "/" := by
  unfold base
  split
  · have hsplit := Chars.dropEndWhile_append_takeWhile (· == '/') label.toList
    obtain ⟨count, hslashes⟩ : ∃ count,
        (label.toList.reverse.takeWhile (· == '/')).reverse = List.replicate count '/' := by
      refine ⟨_, List.eq_replicate_of_mem fun c hc => ?_⟩
      simpa using List.mem_takeWhile_imp (List.mem_reverse.mp hc)
    rw [hslashes] at hsplit
    refine ⟨_, count, hsplit.symm, rfl, fun hbase => ?_⟩
    have hlast : '/' ∈ (Chars.dropEndWhile (· == '/') label.toList).getLast? := by
      rw [← String.toList_ofList (l := Chars.dropEndWhile _ _), ← Text.dropEnd, hbase]
      rfl
    exact absurd (Chars.not_of_getLast?_dropEndWhile hlast) (by decide)
  · exact ⟨label.toList, 0, by simp, by simp, hroot⟩

theorem shownBelow_eq {front : List Char} (hbase : base label = .ofList front)
    (hne : base label ≠ "/") (p : Path) :
    shownBelow label p = .ofList (front ++ '/' :: ("/".intercalate p).toList) := by
  rw [shownBelow, if_neg hne, hbase, ← String.toList_inj]
  simp [Path.display]

/-- The line for a node is read back as its path. -/
theorem resolve_shown (hblank : Text.isBlank label = false) (hp : p.Named Path.IsName) (cwd : Path)
    (user : String) : cwd.resolve user (shown label p) = cwd.resolve user label ++ p := by
  unfold shown
  split
  · next hnil => rw [hnil, List.append_nil]
  · next hne =>
    by_cases hroot : label = "/"
    · subst hroot
      exact Path.resolve_display hp cwd user
    · obtain ⟨front, count, hlabel, hbase, hslash⟩ := exists_base hroot
      have hstart : cwd.resolve user (.ofList (front ++ ['/'])) = cwd.resolve user label := by
        rw [← String.ofList_toList (s := label)] at hblank ⊢
        rw [hlabel] at hblank ⊢
        cases count with
        | zero =>
          rw [List.replicate_zero, List.append_nil] at hblank ⊢
          rw [Path.resolve_append hblank, Path.walk_nil]
        | succ count => rw [List.replicate_succ, Path.resolve_slashes]
      rw [shownBelow_eq hbase hslash, Path.resolve_slash_cons, String.ofList_toList, hstart,
        Path.walk_intercalate hp hne]

theorem Start.ne_empty (h : Start label) : label ≠ "" := by
  rintro rfl
  cases h.notBlank

/-- There is one line for each node. -/
theorem Start.line_shown (h : Start label) (hp : ∀ name ∈ p, '\n' ∉ name.toList) :
    shown label p ≠ "" ∧ '\n' ∉ (shown label p).toList := by
  have hdisplay := newline_not_mem_display hp
  unfold shown
  split
  · exact ⟨h.ne_empty, h.oneLine⟩
  · by_cases hroot : label = "/"
    · subst hroot
      exact ⟨display_ne_empty p, hdisplay⟩
    · obtain ⟨front, count, hlabel, hbase, hslash⟩ := exists_base hroot
      have hfront : '\n' ∉ front := fun hmem => h.oneLine (hlabel ▸ List.mem_append_left _ hmem)
      rw [shownBelow, if_neg hslash, hbase]
      refine ⟨fun he => ?_, ?_⟩
      · exact display_ne_empty p (String.append_eq_empty_iff.mp he).2
      · rw [String.toList_append, String.toList_ofList, List.mem_append, not_or]
        exact ⟨hfront, hdisplay⟩

end Lines

/-- A search is for the node at a path. -/
structure Search.Seeks (s : Search) (start p : Path) (n : Node) : Prop where
  depth : ∀ most ∈ s.maxDepth, p.length ≤ start.length + most
  name : ∀ pattern ∈ s.name, pattern.fits (p.name?.getD "/") = true
  kind : ∀ kind ∈ s.kind, kind.fits n = true

/-- Is the search for a node some names further than its start? -/
def Search.takes (s : Search) (start : Path) (y : Path × Node) : Bool :=
  s.reaches y.1.length && s.keeps ((Path.name? (start ++ y.1)).getD "/") y.2

/-- The nodes at and below a start that a search is for, with the names on the way from there. -/
def Search.found (s : Search) (start : Path) (n : Node) : List (Path × Node) :=
  n.nodes.filter (s.takes start)

/-- The lines for the nodes at and below a start that a search is for, each of them once, in the
order of a walk. -/
structure Search.Finds (s : Search) (m : Machine) (label : String) (rows : List String) : Prop where
  lines : ∀ row ∈ rows, row ≠ "" ∧ '\n' ∉ row.toList
  mem : ∀ p, p ∈ rows.map m.resolve ↔ m.resolve label <+: p ∧
    ∃ n, m.root.get? p = some n ∧ s.Seeks (m.resolve label) p n
  once : (rows.map m.resolve).Nodup
  ordered : (rows.map m.resolve).Pairwise Path.Before
  first : ∀ n, m.node? label = some n → s.Seeks (m.resolve label) (m.resolve label) n →
    rows.head? = some label

/-- A name on paths that takes one line. -/
def IsLineName (name : String) : Prop := Path.IsName name ∧ '\n' ∉ name.toList

instance (name : String) : Decidable (IsLineName name) := by
  unfold IsLineName
  infer_instance

/-- The names of all nodes but the root can be listed. -/
def Listable (root : Node) : Prop :=
  ∀ p n, p ≠ [] → root.get? p = some n → IsLineName n.name

section Searches

variable {s : Search} {m : Machine} {start : Path} {label : String} {n : Node} {y : Path × Node}

theorem listable_of_preorder {root : Node} (hroot : root.InOrder)
    (h : ∀ y ∈ root.preorder [], IsLineName y.2.name) : Listable root := by
  intro p n hp hn
  exact h (p, n) ((hroot.mem_preorder [] _).mpr ⟨p, hp, rfl, hn⟩)

/-- Seen from the start, a search is for the nodes that it is for seen from the root. -/
theorem Search.takes_iff : s.takes start y = true ↔ s.Seeks start (start ++ y.1) y.2 := by
  simp only [takes, reaches, keeps, Bool.and_eq_true, Option.all_eq_true, decide_eq_true_eq]
  constructor
  · rintro ⟨hdepth, hname, hkind⟩
    exact ⟨fun most h => by rw [List.length_append]; exact Nat.add_le_add_left (hdepth most h) _,
      hname, hkind⟩
  · rintro ⟨hdepth, hname, hkind⟩
    refine ⟨fun most h => ?_, hname, hkind⟩
    have hlength := hdepth most h
    rw [List.length_append] at hlength
    exact Nat.le_of_add_le_add_left hlength

/-- Below its start, a search looks at the last name on the path of a node. -/
theorem Search.takes_below (hroot : m.root.InOrder) (hn : m.node? label = some n)
    (hy : y ∈ n.preorder []) :
    s.takes (m.resolve label) y = (s.reaches y.1.length && s.keeps y.2.name y.2) := by
  obtain ⟨parent, name, hpath⟩ := Path.exists_eq_child (Node.ne_nil_of_mem_preorder hy)
  have hk := (hroot.mem_nodes_of_get? hn).mp (List.mem_cons_of_mem _ hy)
  have hchild : m.resolve label ++ y.1 = Path.child (m.resolve label ++ parent) name := by
    rw [hpath, Path.child, Path.child, List.append_assoc]
  rw [hchild] at hk
  rw [takes, hchild, Path.name?_child, Option.getD_some, hroot.name_child hk]

theorem Search.takes_start : s.takes start ([], n) = s.keeps (start.name?.getD "/") n := by
  have hreaches : s.reaches 0 = true := by simp [reaches]
  rw [takes, List.length_nil, hreaches, Bool.true_and, List.append_nil]

theorem find_of_read {c : Call} (h : Search.read {} c.args = .ok s) : find c m = s.run m := by
  rw [find, h]
  rfl

/-- A search prints a line for each node that it is for. -/
theorem Search.run_of_node? (hroot : m.root.InOrder) (hlabel : s.start.getD "." = label)
    (hn : m.node? label = some n) :
    s.run m = .ok (.lines ((s.found (m.resolve label) n).map fun y => shown label y.1)) := by
  have hget : m.root.get? (m.resolve label) = some n := hn
  have hbelow : (n.preorder []).filterMap (fun y =>
        if s.reaches y.1.length && s.keeps y.2.name y.2 then some (shownBelow label y.1)
        else none) =
      ((n.preorder []).filter (s.takes (m.resolve label))).map fun y => shown label y.1 := by
    rw [← List.filterMap_eq_map, List.filterMap_filter]
    refine List.filterMap_congr fun y hy => ?_
    have hshown : shown label y.1 = shownBelow label y.1 :=
      if_neg (Node.ne_nil_of_mem_preorder hy)
    rw [takes_below hroot hn hy, Function.comp_apply, hshown]
  simp only [run, hlabel, hget, Node.descendants_of_get? hget, List.filterMap_map]
  simp only [Function.comp_def, List.drop_left, found, Node.nodes, List.filter_cons, takes_start]
  rw [hbelow]
  split <;> rfl

theorem Search.run_of_missing (hlabel : s.start.getD "." = label) (hn : m.node? label = none) :
    s.run m = .error (.notFound (.searched label)) := by
  have hget : m.root.get? (m.resolve label) = none := hn
  simp only [run, hlabel, hget]

theorem named_of_mem_nodes (hroot : m.root.InOrder) (hnames : Listable m.root)
    (hn : m.node? label = some n) (hy : y ∈ n.nodes) : Path.Named IsLineName y.1 := by
  have hpath := hroot.named hnames ((hroot.mem_nodes_of_get? hn).mp hy)
  exact fun name hname => hpath name (List.mem_append_right _ hname)

/-- The lines are read back as the paths of the nodes that they stand for. -/
theorem Search.map_resolve_found (hroot : m.root.InOrder) (hnames : Listable m.root)
    (hlabel : Start label) (hn : m.node? label = some n) :
    ((s.found (m.resolve label) n).map fun y => shown label y.1).map m.resolve =
      (s.found (m.resolve label) n).map fun y => m.resolve label ++ y.1 := by
  rw [List.map_map]
  refine List.map_congr_left fun y hy => ?_
  have hpath := named_of_mem_nodes hroot hnames hn (List.mem_of_mem_filter hy)
  exact resolve_shown hlabel.notBlank (fun name hname => (hpath name hname).1) m.cwd m.user

/-- The nodes that are found are those that the search is for, at and below the start. -/
theorem Search.mem_found (hroot : m.root.InOrder) (hn : m.node? label = some n) (p : Path) :
    (p ∈ (s.found (m.resolve label) n).map fun y => m.resolve label ++ y.1) ↔
      m.resolve label <+: p ∧ ∃ k, m.root.get? p = some k ∧ s.Seeks (m.resolve label) p k := by
  rw [List.mem_map]
  constructor
  · rintro ⟨y, hy, rfl⟩
    obtain ⟨hmem, htakes⟩ := List.mem_filter.mp hy
    exact ⟨List.prefix_append _ _, y.2, (hroot.mem_nodes_of_get? hn).mp hmem, takes_iff.mp htakes⟩
  · rintro ⟨⟨q, rfl⟩, k, hk, hseeks⟩
    have hmem : (q, k) ∈ n.nodes := (hroot.mem_nodes_of_get? hn).mpr hk
    exact ⟨(q, k), List.mem_filter.mpr ⟨hmem, takes_iff.mpr hseeks⟩, rfl⟩

theorem Search.pairwise_found (hroot : m.root.InOrder) (hn : m.node? label = some n) :
    ((s.found (m.resolve label) n).map fun y => m.resolve label ++ y.1).Pairwise Path.Before := by
  have hbelow : n.InOrder := hroot.get? hn
  rw [List.pairwise_map]
  exact (hbelow.pairwise_nodes.filter _).imp fun hyz => hyz.within (m.resolve label)

/-- A walk comes upon each node once, and the paths of different nodes are different lines. -/
theorem Search.finds (hroot : m.root.InOrder) (hnames : Listable m.root) (hlabel : Start label)
    (hn : m.node? label = some n) :
    s.Finds m label ((s.found (m.resolve label) n).map fun y => shown label y.1) := by
  have hresolve := map_resolve_found (s := s) hroot hnames hlabel hn
  have hordered := pairwise_found (s := s) hroot hn
  exact {
    lines := by
      refine List.forall_mem_map.mpr fun y hy => hlabel.line_shown fun name hname => ?_
      exact (named_of_mem_nodes hroot hnames hn (List.mem_of_mem_filter hy) name hname).2
    mem := by
      intro p
      rw [hresolve, mem_found hroot hn]
    once := by
      rw [hresolve]
      exact hordered.imp fun hyz => hyz.ne
    ordered := by rwa [hresolve]
    first := by
      intro k hk hseeks
      cases hn.symm.trans hk
      have htakes : s.takes (m.resolve label) ([], n) = true := by
        rw [takes_iff, List.append_nil]
        exact hseeks
      rw [found, Node.nodes, List.filter_cons_of_pos htakes]
      rfl }

end Searches

end Walk

namespace Command

open Walk

/-- A search finds the nodes at and below its start that its tests are for, and nothing else. -/
theorem found_by_find (x : Context) {m : Machine} (hroot : m.root.InOrder)
    (hnames : Listable m.root) {before after : List Test} {words words' : List (List String)}
    (hbefore : List.Forall₂ Test.Spelled before words)
    (hafter : List.Forall₂ Test.Spelled after words') {start : Option String}
    (hstart : ∀ label ∈ start, Start label) :
    let label := start.getD "."
    let s : Search := (before ++ after).foldl Search.put { start }
    let answer := (run x ("find" :: (words.flatten ++ (start.toList ++ words'.flatten))) m).answer
    (m.node? label = none → answer = .error (.notFound (.searched label))) ∧
      (m.node? label ≠ none → ∃ rows, answer = .ok (.lines rows) ∧ s.Finds m label rows) := by
  intro label s answer
  have hread := Search.read_all hbefore hafter fun label h => (hstart label h).undashed
  have hanswer : answer = s.run m := by
    simp only [answer]
    rw [run_files x _ m (by decide +kernel : ofName? "find" = some (.files .find))]
    exact find_of_read (c := x.call "find" _) hread
  have hs : s.start.getD "." = label := by
    have hput := Search.foldl_put_start (before ++ after) { start } start
    have hstart : s.start = start := by
      simp only [s]
      rw [← hput]
    rw [hstart]
  have hlabel : Start label := by
    cases start with
    | none => exact ⟨by decide, by decide, by decide⟩
    | some label => exact hstart label rfl
  rw [hanswer]
  refine ⟨Search.run_of_missing hs, fun hfound => ?_⟩
  obtain ⟨n, hn⟩ := Option.ne_none_iff_exists'.mp hfound
  exact ⟨_, Search.run_of_node? hroot hs hn, Search.finds hroot hnames hlabel hn⟩

/-- The directories at the home and one level further, with slashes behind the tilde. -/
theorem found_by_find_home :
    Sample.machine.root.InOrder ∧ Listable Sample.machine.root ∧
      ∃ rows, (run Sample.context ["find", "-maxdepth", "1", "~//", "-type", "d"]
          Sample.machine).answer = .ok (.lines rows) ∧
        Search.Finds { start := some "~//", kind := some .directory, maxDepth := some 1 }
          Sample.machine "~//" rows ∧
        ["home", "user", "docs"] ∈ rows.map Sample.machine.resolve := by
  have hsound : Node.Sound Path.IsName Sample.machine.root := Seed.sound_root _ "terminus"
  have hroot : Sample.machine.root.InOrder := hsound.wellFormed.inOrder
  have hnames : Listable Sample.machine.root := listable_of_preorder hroot (by decide +kernel)
  have hbefore : List.Forall₂ Test.Spelled [.maxDepth 1] [["-maxdepth", "1"]] :=
    .cons (.maxDepth (by decide +kernel)) .nil
  have hafter : List.Forall₂ Test.Spelled [.kind .directory] [["-type", "d"]] :=
    .cons (.kind (by decide)) .nil
  have hstart : ∀ label ∈ some "~//", Start label := by
    rintro _ ⟨⟩
    exact ⟨by decide, by decide, by decide⟩
  obtain ⟨-, hfind⟩ := found_by_find Sample.context hroot hnames hbefore hafter hstart
  obtain ⟨rows, hrows, hfinds⟩ := hfind (by decide +kernel)
  refine ⟨hroot, hnames, rows, hrows, hfinds, (hfinds.mem _).mpr ⟨by decide +kernel, ?_⟩⟩
  have hdocs : (Sample.machine.root.get? ["home", "user", "docs"]).any (·.isDirectory) = true := by
    decide +kernel
  obtain ⟨n, hn, hdirectory⟩ := (Option.any_eq_true _ _).mp hdocs
  refine ⟨n, hn, fun most hmost => ?_, nofun, fun kind hkind => ?_⟩
  · cases hmost
    decide +kernel
  · cases hkind
    exact hdirectory

end Command

end PocketUnix
