import Mathlib.Algebra.GroupWithZero.Nat
import Mathlib.Data.List.Forall2
import PocketUnix.Proofs.Command.Call
import PocketUnix.Proofs.Command.Job
import PocketUnix.Proofs.Sample
import PocketUnix.Proofs.Shell.Options
import PocketUnix.Proofs.Text.Ends
import PocketUnix.Proofs.Text.Pieces
import PocketUnix.Proofs.Tree.Walks

/-!
# What walks print

`du`, `find` and `tree` walk a directory each in its own way: from the inner directories to the
outer ones, from a node to those below it, and with branches in front of the names. They come upon
the same nodes and call them by the same paths.
-/

namespace PocketUnix

namespace Node

/-- Four kibibytes for a directory, and four for every 4096 bytes that a file has begun. -/
def kibibytes : Node → Nat
  | .directory .. => 4
  | .file _ content => 4 * ((Text.byteLength content + 4095) / 4096)
  | .link .. => 0

/-- The kibibytes of all nodes at and below a node. -/
def figure (n : Node) : Nat := (n.nodes.map fun y => y.2.kibibytes).sum

end Node

namespace Walk

mutual

theorem usage_total (label : String) : (n : Node) → (usage label n).1 = n.figure
  | .file _ content => by
    simp [usage, fileUsage, Node.figure, Node.nodes, Node.preorder, Node.kibibytes, Nat.mul_comm]
  | .link .. => rfl
  | .directory _ entries => by
    simp [usage, Node.figure, Node.nodes, Node.preorder, Node.kibibytes,
      entriesUsage_total label entries]

theorem entriesUsage_total (label : String) :
    (entries : List (String × Node)) →
      (entriesUsage label entries).1 =
        ((Node.entriesPreorder [] entries).map fun y => y.2.kibibytes).sum
  | [] => rfl
  | (_, n) :: rest => by
    rw [entriesUsage, Node.entriesPreorder_cons]
    simp [usage_total _ n, entriesUsage_total label rest, Node.figure, Node.behind,
      Function.comp_def]

end

/-- A path below a label, written out. -/
def written (label : String) : Path → String
  | [] => label
  | name :: rest => written (label ++ "/" ++ name) rest

/-- The root has an empty label where a path is put together, and a slash where it is shown. -/
def rooted (path : String) : String := if path = "" then "/" else path

mutual

/-- There is a row for each directory at and below a node. It stands behind the rows of its entries,
while the node stands in front of theirs. -/
theorem usage_rows (label : String) :
    (n : Node) → (usage label n).2.Perm
      ((n.nodes.filter (·.2.isDirectory)).map fun y => (y.2.figure, rooted (written label y.1)))
  | .file .. => .nil
  | .link .. => .nil
  | .directory a entries => by
    have hrows := entriesUsage_rows label entries
    have htotal := usage_total label (.directory a entries)
    simp only [usage] at htotal ⊢
    rw [htotal]
    exact (List.perm_append_singleton _ _).trans (hrows.cons _)

theorem entriesUsage_rows (label : String) :
    (entries : List (String × Node)) → (entriesUsage label entries).2.Perm
      (((Node.entriesPreorder [] entries).filter (·.2.isDirectory)).map
        fun y => (y.2.figure, rooted (written label y.1)))
  | [] => .nil
  | (_, n) :: rest => by
    rw [Node.entriesPreorder_cons, List.filter_append, List.map_append, List.filter_map,
      List.map_map]
    exact (usage_rows (label ++ "/" ++ n.name) n).append (entriesUsage_rows label rest)

end

/-- What stands in front of a name in a drawing, a column for each node on the way. -/
def IsMark (mark : String) : Prop := mark = "│   " ∨ mark = "    "

/-- The line shows a node, behind as many columns as there are nodes on the way to it. -/
def Shows (indent : String) (y : Path × Node) (line : String) : Prop :=
  ∃ marks branch, marks.length + 1 = y.1.length ∧ (∀ mark ∈ marks, IsMark mark) ∧
    (branch = "├── " ∨ branch = "└── ") ∧
    line = indent ++ String.join marks ++ branch ++ y.2.name ++ Listing.arrow y.2

/-- The drawing shows the nodes, one to a line, and counts them. -/
structure Pictures (indent : String) (nodes : List (Path × Node)) (d : Drawing) : Prop where
  lines : List.Forall₂ (Shows indent) nodes d.lines
  directories : d.directories = nodes.countP (·.2.isDirectory)
  files : d.files = nodes.countP (!·.2.isDirectory)

variable {indent mark : String} {nodes others : List (Path × Node)} {d e : Drawing}

theorem pictures_empty : Pictures indent [] .empty := ⟨.nil, rfl, rfl⟩

theorem Pictures.above (h : Pictures indent nodes d) (h' : Pictures indent others e) :
    Pictures indent (nodes ++ others) (d.above e) where
  lines := List.rel_append h.lines h'.lines
  directories := by simp [Drawing.above, h.directories, h'.directories]
  files := by simp [Drawing.above, h.files, h'.files]

theorem Shows.behind {y : Path × Node} {line : String} (hmark : IsMark mark)
    (h : Shows (indent ++ mark) y line) (name : String) :
    Shows indent (Node.behind name y) line := by
  obtain ⟨marks, branch, hlength, hmarks, hbranch, rfl⟩ := h
  refine ⟨mark :: marks, branch, ?_, List.forall_mem_cons.mpr ⟨hmark, hmarks⟩, hbranch, ?_⟩
  · simp [Node.behind, hlength]
  · simp [Node.behind, String.append_assoc]

/-- Names in front of the paths of the nodes are not drawn, but for their columns. -/
theorem Pictures.behind (hmark : IsMark mark) (h : Pictures (indent ++ mark) nodes d)
    (name : String) : Pictures indent (nodes.map (Node.behind name)) d where
  lines := List.forall₂_map_left_iff.mpr (h.lines.imp fun _ _ hy => hy.behind hmark name)
  directories := by
    rw [h.directories, List.countP_map]
    rfl
  files := by
    rw [h.files, List.countP_map]
    rfl

/-- A node is drawn above what is drawn below it. -/
theorem Pictures.under {n : Node} {branch : String} (hmark : IsMark mark)
    (hbranch : branch = "├── " ∨ branch = "└── ")
    (h : Pictures (indent ++ mark) (n.preorder []) d) :
    Pictures indent (n.nodes.map (Node.behind n.name))
      (Drawing.above ⟨[indent ++ branch ++ n.name ++ Listing.arrow n],
        if n.isDirectory then 1 else 0, if n.isDirectory then 0 else 1⟩ d) := by
  have hline : Shows indent ([n.name], n) (indent ++ branch ++ n.name ++ Listing.arrow n) :=
    ⟨[], branch, rfl, List.forall_mem_nil _, hbranch, by simp⟩
  have hnode : Pictures indent [([n.name], n)] ⟨[indent ++ branch ++ n.name ++ Listing.arrow n],
      if n.isDirectory then 1 else 0, if n.isDirectory then 0 else 1⟩ :=
    { lines := .cons hline .nil
      directories := by cases hd : n.isDirectory <;> simp [hd]
      files := by cases hd : n.isDirectory <;> simp [hd] }
  exact hnode.above (h.behind hmark n.name)

/-- Everything is drawn, however far below. -/
def everything : DrawOptions := ⟨true, false, none⟩

mutual

theorem pictures_draw (level : Nat) (indent : String) :
    (n : Node) → Pictures indent (n.preorder []) (draw everything level indent n)
  | .directory _ entries => pictures_drawEntries level indent entries
  | .file .. => pictures_empty
  | .link .. => pictures_empty

/-- Entries are drawn one after the other, each above what is below it. Whether another one follows
decides on its branch and on the column below. -/
theorem pictures_drawEntries (level : Nat) (indent : String) :
    (entries : List (String × Node)) →
      Pictures indent (Node.entriesPreorder [] entries)
        (drawEntries everything level indent entries)
  | [] => pictures_empty
  | (_, n) :: rest => by
    have hshows (n : Node) : everything.shows n = true := rfl
    rw [Node.entriesPreorder_cons, drawEntries, hshows]
    refine Pictures.above ?_ (pictures_drawEntries level indent rest)
    cases rest.any fun entry => everything.shows entry.2 with
    | true => exact (pictures_draw (level + 1) (indent ++ "│   ") n).under (.inl rfl) (.inl rfl)
    | false => exact (pictures_draw (level + 1) (indent ++ "    ") n).under (.inr rfl) (.inr rfl)

end

/-- A label that every walk writes in front of paths in the same way. -/
structure Label (label : String) : Prop where
  nonempty : label ≠ ""
  oneLine : '\n' ∉ label.toList
  undashed : label.toList.head? ≠ some '-'
  closed : label = "/" ∨ label.toList.getLast? ≠ some '/'

/-- The path of a node below a label. -/
def below (label : String) (p : Path) : String :=
  if p = [] then label else if label = "/" then p.display else label ++ p.display

/-- Behind a label a path is written as it is displayed. -/
theorem written_eq (label : String) {p : Path} (hp : p ≠ []) :
    written label p = label ++ p.display := by
  induction p generalizing label with
  | nil => exact absurd rfl hp
  | cons name rest ih =>
    cases rest with
    | nil => simp [written, Path.display, String.append_assoc]
    | cons next rest =>
      rw [written, ih _ (List.cons_ne_nil next rest)]
      simp [Path.display, String.append_assoc, String.intercalate_cons_cons]

section Label

variable {label : String} {p : Path}

/-- A label has no slash at its end, unless it is the root. -/
theorem Label.dropEnd_slash (h : Label label) :
    Text.dropEnd '/' label = if label = "/" then "" else label := by
  split
  · next hroot =>
    subst hroot
    rfl
  · next hroot =>
    have hlast : ∀ c ∈ label.toList.getLast?, (c == '/') = false := by
      rintro c hc
      refine beq_eq_false_iff_ne.mpr ?_
      rintro rfl
      exact h.closed.resolve_left hroot hc
    have hkept := Chars.dropEndWhile_append (List.forall_mem_nil _) hlast
    rw [List.append_nil] at hkept
    rw [Text.dropEnd, hkept, String.ofList_toList]

theorem display_ne_empty (p : Path) : p.display ≠ "" := by
  intro h
  have hletters := congrArg String.toList h
  simp [Path.display] at hletters

/-- What `du` writes for a path is what all walks write. -/
theorem Label.rooted_written (h : Label label) (p : Path) :
    rooted (written (Text.dropEnd '/' label) p) = below label p := by
  rw [h.dropEnd_slash]
  by_cases hp : p = []
  · subst hp
    by_cases hroot : label = "/"
    · subst hroot
      rfl
    · simp [written, below, rooted, hroot, h.nonempty]
  · by_cases hroot : label = "/"
    · simp [written_eq _ hp, below, rooted, hp, hroot, display_ne_empty]
    · simp [written_eq _ hp, below, rooted, hp, hroot, h.nonempty]

theorem Label.base_eq (h : Label label) : base label = label := by
  by_cases hroot : label = "/"
  · subst hroot
    decide
  · rw [base, h.dropEnd_slash, if_neg hroot, ite_self]

theorem Label.shownBelow_eq (h : Label label) (hp : p ≠ []) :
    shownBelow label p = below label p := by
  simp only [shownBelow, h.base_eq, below, if_neg hp]

/-- A path takes one line, as the names on it do. -/
theorem newline_not_mem_display (hp : ∀ name ∈ p, '\n' ∉ name.toList) :
    '\n' ∉ p.display.toList := by
  intro hmem
  rw [Path.display, String.toList_append, String.toList_intercalate, List.mem_append] at hmem
  rcases hmem with hslash | hmem
  · exact absurd hslash (by decide)
  · obtain hslash | ⟨part, hpart, hline⟩ := Chars.mem_of_mem_intercalate hmem
    · exact absurd hslash (by decide)
    · obtain ⟨name, hname, rfl⟩ := List.mem_map.mp hpart
      exact hp name hname hline

/-- Paths take one line, as their labels and the names on them do. -/
theorem Label.newline_not_mem_below (h : Label label) (hp : ∀ name ∈ p, '\n' ∉ name.toList) :
    '\n' ∉ (below label p).toList := by
  have hdisplay := newline_not_mem_display hp
  unfold below
  split
  · exact h.oneLine
  · split
    · exact hdisplay
    · rw [String.toList_append, List.mem_append, not_or]
      exact ⟨h.oneLine, hdisplay⟩

end Label

section Commands

variable {c : Call} {m : Machine} {label : String} {n : Node}

theorem usage_label (h : Label label) (n : Node) :
    (usage (Text.dropEnd '/' label) n).2.Perm
      ((n.nodes.filter (·.2.isDirectory)).map fun y => (y.2.figure, below label y.1)) := by
  have hrows := usage_rows (Text.dropEnd '/' label) n
  simpa only [h.rooted_written] using hrows

theorem du_label (h : Label label) (hargs : c.args = [label]) (hn : m.node? label = some n)
    (hdir : n.isDirectory = true) :
    du c m = .ok (.lines ((usage (Text.dropEnd '/' label) n).2.map fun row =>
      s!"{row.1}\t{row.2}")) := by
  have hoptions : c.options "d" = { operands := [label] } := by
    rw [Call.options, hargs, Shell.Options.ofArgs_operand h.undashed]
  rw [du, hoptions]
  simp [hn, hdir, Shell.Options.has, bind, Except.bind, pure, Except.pure]
  rfl

/-- A search without a pattern for names and without a bound finds every node of its kind. -/
theorem Search.run_label (h : Label label) (hn : m.node? label = some n) (kind : Option Kind)
    (hkind : kind.all (·.fits n) = true) :
    Search.run { start := some label, kind } m = .ok (.lines
      ((n.nodes.filter fun y => kind.all (·.fits y.2)).map fun y => below label y.1)) := by
  have hget : m.root.get? (m.resolve label) = some n := hn
  have hbelow : (n.preorder []).filterMap (fun y =>
        if kind.all (·.fits y.2) then some (shownBelow label y.1) else none) =
      ((n.preorder []).filter fun y => kind.all (·.fits y.2)).map fun y => below label y.1 := by
    rw [← List.filterMap_eq_map, List.filterMap_filter]
    refine List.filterMap_congr fun y hy => ?_
    rw [h.shownBelow_eq (Node.ne_nil_of_mem_preorder hy)]
    rfl
  simp only [run, Option.getD_some, hget, Node.descendants_of_get? hget, List.filterMap_map]
  simp [keeps, reaches, Node.nodes, hkind, hbelow]
  rfl

/-- The first word without a dash tells where to start. -/
theorem Search.read_start {s : Search} (hdash : label.toList.head? ≠ some '-')
    (hnone : s.start = none) (rest : List String) :
    s.read (label :: rest) = Search.read { s with start := some label } rest := by
  have hplain : ¬Text.startsWith label "-" = true := by
    intro hstart
    obtain ⟨tail, htail⟩ := List.isPrefixOf_iff_prefix.mp hstart
    exact hdash (by rw [← htail]; rfl)
  have hword {s : String} (hs : s.toList.head? = some '-') : label ≠ s := by
    rintro rfl
    exact hdash hs
  have hname : ¬(label = "-name" ∨ label = "-iname") := not_or.mpr ⟨hword rfl, hword rfl⟩
  rw [Search.read.eq_def]
  simp only [if_neg hname, if_neg (hword rfl : label ≠ "-type"),
    if_neg (hword rfl : label ≠ "-maxdepth"), if_neg hplain, hnone]

/-- A search without tests prints every node. -/
theorem find_label (h : Label label) (hargs : c.args = [label]) (hn : m.node? label = some n) :
    find c m = .ok (.lines (n.nodes.map fun y => below label y.1)) := by
  have hread : Search.read {} c.args = .ok { start := some label } := by
    rw [hargs, Search.read_start h.undashed rfl]
    rfl
  have hrun := Search.run_label h hn none rfl
  have hall : n.nodes.filter (fun y => (none : Option Kind).all (·.fits y.2)) = n.nodes :=
    List.filter_eq_self.mpr fun _ _ => rfl
  rw [hall] at hrun
  rw [find, hread]
  exact hrun

theorem find_directories (h : Label label) (hargs : c.args = [label, "-type", "d"])
    (hn : m.node? label = some n) (hdir : n.isDirectory = true) :
    find c m = .ok (.lines ((n.nodes.filter (·.2.isDirectory)).map fun y => below label y.1)) := by
  have hread : Search.read {} c.args = .ok { start := some label, kind := some .directory } := by
    rw [hargs, Search.read_start h.undashed rfl]
    rfl
  rw [find, hread]
  exact Search.run_label h hn (some .directory) hdir

/-- With all entries, a drawing shows every node below the label and is followed by its two counts.
-/
theorem tree_all (h : Label label) (hargs : c.args = ["-a", label]) (hn : m.node? label = some n)
    (hdir : n.isDirectory = true) :
    ∃ d, Pictures "" (n.preorder []) d ∧ tree c m = .ok (.lines (label :: d.lines ++
      ["", plural d.directories "directory" "directories" ++ ", " ++
        plural d.files "file" "files"])) := by
  have hoptions : c.options "L" = { flags := ['a'], operands := [label] } := by
    rw [Call.options, hargs]
    change Shell.Options.withCluster ['a'] none (Shell.Options.ofArgs "L" [label]) = _
    rw [Shell.Options.ofArgs_operand h.undashed]
    rfl
  cases n with
  | file => cases hdir
  | link => cases hdir
  | directory a entries =>
    refine ⟨_, pictures_draw 1 "" (.directory a entries), ?_⟩
    rw [tree, hoptions]
    simp only [Shell.Options.operand?, List.getElem?_cons_zero, Option.getD_some, hn]
    rfl

end Commands

/-- A command prints these lines. -/
def Prints (answer : Answer) (rows : List String) : Prop :=
  ∃ r, answer = .ok r ∧ Text.splitOn r.text '\n' = rows

theorem prints_of_eq {answer : Answer} {rows : List String} (hanswer : answer = .ok (.lines rows))
    (h : ∀ row ∈ rows, '\n' ∉ row.toList) (hne : rows ≠ []) : Prints answer rows :=
  ⟨_, hanswer, Text.splitOn_intercalate h hne⟩

/-- A row takes one line if its path does. -/
theorem newline_not_mem_row {row : Nat × String} (h : '\n' ∉ row.2.toList) :
    '\n' ∉ s!"{row.1}\t{row.2}".toList := by
  have hfigure : '\n' ∉ (toString row.1).toList := by
    intro hmem
    have hdigit := Nat.isDigit_of_mem_toDigits (by decide) (by decide)
      (String.toList_ofList ▸ hmem)
    exact absurd hdigit (by decide)
  simp only [String.toList_append, List.mem_append, not_or]
  exact ⟨⟨hfigure, by decide⟩, h⟩

/-- No path takes two lines where no name does. -/
theorem Label.newline_not_mem_of_mem_nodes {m : Machine} {label : String} {n : Node}
    (h : Label label) (hn : m.node? label = some n)
    (hnames : ∀ y ∈ m.root.descendants (m.resolve label), '\n' ∉ y.2.name.toList) :
    ∀ y ∈ n.nodes, '\n' ∉ (below label y.1).toList := by
  intro y hy
  refine h.newline_not_mem_below fun name hname => ?_
  rcases List.mem_cons.mp hy with rfl | hy
  · cases hname
  · obtain ⟨z, hz, rfl⟩ := Node.exists_name_of_mem_preorder hname n hy
    refine hnames (m.resolve label ++ z.1, z.2) ?_
    rw [Node.descendants_of_get? hn]
    exact List.mem_map_of_mem hz

/-- What the walks at a label print: rows of figures and paths, paths and a drawing. -/
structure Printed (x : Context) (m : Machine) (label : String) (rows : List (Nat × String))
    (directories found : List String) (d : Drawing) : Prop where
  du : Prints (Command.run x ["du", label] m).answer (rows.map fun row => s!"{row.1}\t{row.2}")
  findDirectories : Prints (Command.run x ["find", label, "-type", "d"] m).answer directories
  find : Prints (Command.run x ["find", label] m).answer found
  tree : (Command.run x ["tree", "-a", label] m).answer = .ok (.lines (label :: d.lines ++
    ["", plural d.directories "directory" "directories" ++ ", " ++ plural d.files "file" "files"]))

/-- What is printed tells of one tree. -/
structure Agree (label : String) (n : Node) (rows : List (Nat × String))
    (directories found : List String) (d : Drawing) : Prop where
  labels : (rows.map Prod.snd).Perm directories
  figures : rows.Perm
    ((n.nodes.filter (·.2.isDirectory)).map fun y => (y.2.figure, below label y.1))
  directories : d.directories + 1 = rows.length
  nodes : d.directories + d.files + 1 = found.length
  entries : d.lines.length = d.directories + d.files
  drawn : List.Forall₂ (Shows "") (n.preorder []) d.lines

/-- Rows, paths and drawing agree if they are of the same nodes, in whatever order. -/
theorem agree_of_perm {label : String} {n : Node} {rows : List (Nat × String)} {d : Drawing}
    (hdir : n.isDirectory = true)
    (hrows : rows.Perm
      ((n.nodes.filter (·.2.isDirectory)).map fun y => (y.2.figure, below label y.1)))
    (hd : Pictures "" (n.preorder []) d) :
    Agree label n rows ((n.nodes.filter (·.2.isDirectory)).map fun y => below label y.1)
      (n.nodes.map fun y => below label y.1) d := by
  have hdirectories : n.nodes.countP (·.2.isDirectory) = d.directories + 1 := by
    rw [hd.directories]
    exact List.countP_cons_of_pos hdir
  have hentries : d.lines.length = d.directories + d.files := by
    rw [← hd.lines.length_eq, hd.directories, hd.files]
    simpa using List.length_eq_countP_add_countP (·.2.isDirectory) (l := n.preorder [])
  exact {
    labels := by simpa [Function.comp_def] using hrows.map Prod.snd
    figures := hrows
    directories := by
      rw [hrows.length_eq, List.length_map, ← List.countP_eq_length_filter, hdirectories]
    nodes := by
      rw [← hentries, ← hd.lines.length_eq, List.length_map, Node.nodes, List.length_cons]
    entries := hentries
    drawn := hd.lines }

end Walk

namespace Command

open Walk

theorem run_files (x : Context) {name : String} {command : FileCommand} (args : List String)
    (m : Machine) (hname : ofName? name = some (.files command)) :
    run x (name :: args) m = Files.run command (x.call name args) m :=
  run_plain x args m hname nofun nofun

/-- At every directory, `du`, `find` and `tree` come upon the same nodes. -/
theorem walks_agree (x : Context) {m : Machine} {label : String} {n : Node}
    (hlabel : Label label) (hn : m.node? label = some n) (hdir : n.isDirectory = true)
    (hnames : ∀ y ∈ m.root.descendants (m.resolve label), '\n' ∉ y.2.name.toList) :
    ∃ rows directories found d,
      Printed x m label rows directories found d ∧ Agree label n rows directories found d := by
  have hpaths := hlabel.newline_not_mem_of_mem_nodes hn hnames
  have hself : ([], n) ∈ n.nodes.filter (·.2.isDirectory) :=
    List.mem_filter.mpr ⟨List.mem_cons_self, hdir⟩
  have hrows := usage_label hlabel n
  obtain ⟨d, hd, htree⟩ := tree_all (c := x.call "tree" ["-a", label]) hlabel rfl hn hdir
  refine ⟨_, _, _, d, ⟨?_, ?_, ?_, ?_⟩, agree_of_perm hdir hrows hd⟩
  · rw [run_files x _ m (by decide +kernel : ofName? "du" = some (.files .du))]
    refine prints_of_eq (du_label hlabel rfl hn hdir)
      (List.forall_mem_map.mpr fun row hrow => ?_) ?_
    · obtain ⟨y, hy, rfl⟩ := List.mem_map.mp (hrows.mem_iff.mp hrow)
      exact newline_not_mem_row (hpaths y (List.mem_of_mem_filter hy))
    · have hrow := hrows.mem_iff.mpr (List.mem_map_of_mem hself)
      exact List.ne_nil_of_mem (List.mem_map_of_mem hrow)
  · rw [run_files x _ m (by decide +kernel : ofName? "find" = some (.files .find))]
    exact prints_of_eq (find_directories hlabel rfl hn hdir)
      (List.forall_mem_map.mpr fun y hy => hpaths y (List.mem_of_mem_filter hy))
      (List.ne_nil_of_mem (List.mem_map_of_mem hself))
  · rw [run_files x _ m (by decide +kernel : ofName? "find" = some (.files .find))]
    exact prints_of_eq (find_label hlabel rfl hn) (List.forall_mem_map.mpr hpaths)
      (List.cons_ne_nil _ _)
  · rw [run_files x _ m (by decide +kernel : ofName? "tree" = some (.files .tree))]
    simpa only [Files.run, Outcome.ofQuery] using htree

theorem walks_agree_root : ∃ rows directories found d,
    Printed Sample.context Sample.machine "/" rows directories found d ∧
      Agree "/" Sample.machine.root rows directories found d :=
  walks_agree Sample.context ⟨by decide, by decide, by decide, .inl rfl⟩ rfl rfl (by decide +kernel)

end Command

end PocketUnix
