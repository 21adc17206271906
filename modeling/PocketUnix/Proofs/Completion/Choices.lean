import PocketUnix.Proofs.Command.Names
import PocketUnix.Proofs.Completion.CommonStart
import PocketUnix.Proofs.Completion.Words
import PocketUnix.Proofs.Tree.WellFormed

/-!
# What a word can be completed to

The choices at a word are the names of commands, or the names in one directory, that begin with
what has been typed. Which answer is given depends on how many there are and on what they have in
common.
-/

namespace PocketUnix.Completion

/-- A name to choose, of a directory or of anything else. -/
structure Choice where
  name : String
  isDirectory : Bool
  deriving DecidableEq, Repr

/-- The letters that are offered: a directory has a slash behind its name. -/
def Choice.letters (c : Choice) : List Char :=
  if c.isDirectory then c.name.toList ++ ['/'] else c.name.toList

/-- Where the names to choose from are looked for. -/
inductive Source where
  | commands
  | directory (p : Path)

variable {m : Machine} {before after lead word typed : List Char} {source : Source}
  {choices : List Choice}

/-- At the place of a command the whole word has been typed of the name of one, elsewhere its last
part of the name of a file in the directory of the word. -/
inductive Looks (m : Machine) (lead word : List Char) : Source → List Char → Prop
  | commands (h : CommandPlace lead) : Looks m lead word .commands word
  | directory {p : Path} {typed : List Char} (h : ¬CommandPlace lead) (hw : Names m word p typed) :
    Looks m lead word (.directory p) typed

/-- The choices of a source, whatever has been typed. -/
inductive Source.Has (m : Machine) : Source → Choice → Prop
  | command {name : String} (h : Command.isName name = true) : Has m .commands ⟨name, false⟩
  | entry {p : Path} {name : String} {n : Node} (h : m.root.get? (p.child name) = some n) :
    Has m (.directory p) ⟨name, n.isDirectory⟩

/-- All choices of a source that begin with what has been typed, in the order of names. -/
structure Offered (m : Machine) (source : Source) (typed : List Char) (choices : List Choice) :
    Prop where
  mem_iff : ∀ c, c ∈ choices ↔ source.Has m c ∧ typed <+: c.name.toList
  sorted : choices.Pairwise fun a b => a.name < b.name

theorem Offered.unique {others : List Choice} (h : Offered m source typed choices)
    (h' : Offered m source typed others) : choices = others := by
  refine Table.eq_of_mem_iff h.sorted h'.sorted fun c => ?_
  rw [h.mem_iff, h'.mem_iff]

theorem Choice.prefix_letters {c : Choice} (h : typed <+: c.name.toList) : typed <+: c.letters := by
  unfold Choice.letters
  split
  · exact h.trans (List.prefix_append _ _)
  · exact h

/-- The choices of a source, as they are found. -/
def found (m : Machine) : Source → List Char → List Choice
  | .commands, typed =>
    (Command.names.filter fun name => typed.isPrefixOf name.toList).map (⟨·, false⟩)
  | .directory p, typed =>
    (((m.root.get? p).elim [] Node.entries).filter
      fun e => typed.isPrefixOf e.2.name.toList).map fun e => ⟨e.2.name, e.2.isDirectory⟩

/-- What is found begins with what has been typed. -/
theorem prefix_letters_of_found {c : Choice} (h : c ∈ found m source typed) :
    typed <+: c.letters := by
  cases source with
  | commands =>
    obtain ⟨name, hname, rfl⟩ := List.mem_map.mp h
    exact Choice.prefix_letters (List.isPrefixOf_iff_prefix.mp (List.mem_filter.mp hname).2)
  | directory p =>
    obtain ⟨e, he, rfl⟩ := List.mem_map.mp h
    exact Choice.prefix_letters (List.isPrefixOf_iff_prefix.mp (List.mem_filter.mp he).2)

/-- The names of commands stand in order in their list, and have no slash behind them. -/
theorem offered_commands (m : Machine) (typed : List Char) :
    Offered m .commands typed (found m .commands typed) := by
  constructor
  · rintro ⟨name, isDirectory⟩
    simp only [found, List.mem_map, List.mem_filter, List.isPrefixOf_iff_prefix, Choice.mk.injEq]
    constructor
    · rintro ⟨name, ⟨hname, htyped⟩, rfl, rfl⟩
      exact ⟨.command (Command.isName_iff.mpr hname), htyped⟩
    · rintro ⟨hhas, htyped⟩
      cases hhas with
      | command hname => exact ⟨name, ⟨Command.isName_iff.mp hname, htyped⟩, rfl, rfl⟩
  · exact List.pairwise_map.mpr (Command.sorted_names.filter _)

/-- A directory keeps its entries in the order of their names. -/
theorem offered_directory (h : m.root.InOrder) (p : Path) (typed : List Char) :
    Offered m (.directory p) typed (found m (.directory p) typed) := by
  cases hd : m.root.get? p with
  | none =>
    constructor
    · rintro c
      simp only [found, hd, Option.elim_none, List.filter_nil, List.map_nil, List.not_mem_nil,
        false_iff, not_and]
      intro hhas
      cases hhas with
      | entry hn => simp [Node.get?_child, hd] at hn
    · simp [found, hd]
  | some d =>
    obtain ⟨hsorted, hkeyed⟩ := h p d hd
    constructor
    · rintro ⟨name, isDirectory⟩
      simp only [found, hd, Option.elim_some, List.mem_map, List.mem_filter,
        List.isPrefixOf_iff_prefix, Choice.mk.injEq]
      constructor
      · rintro ⟨⟨key, n⟩, ⟨hmem, htyped⟩, rfl, rfl⟩
        have hkey : key = n.name := hkeyed _ hmem
        subst hkey
        exact ⟨.entry ((h.mem_entries hd).mp hmem), htyped⟩
      · rintro ⟨hhas, htyped⟩
        cases hhas with
        | @entry _ _ n hn =>
          have hmem := (h.mem_entries hd).mpr hn
          have hkey : name = n.name := hkeyed _ hmem
          subst hkey
          exact ⟨(n.name, n), ⟨hmem, htyped⟩, rfl, rfl⟩
    · simp only [found, hd, Option.elim_some, List.pairwise_map]
      refine (hsorted.imp_of_mem fun {a b} ha hb hab => ?_).filter _
      rw [← hkeyed a ha, ← hkeyed b hb]
      exact hab

/-- Directories keep their names in order, and so does the list of commands. -/
theorem offered_found (h : m.root.InOrder) (source : Source) (typed : List Char) :
    Offered m source typed (found m source typed) := by
  cases source with
  | commands => exact offered_commands m typed
  | directory p => exact offered_directory h p typed

/-- What is offered are the choices that are found. -/
theorem offer_eq (h : Looks m lead word source typed) :
    (if isCommandPlace lead then commandOffer word else pathOffer m word) =
      ⟨typed, (found m source typed).map Choice.letters⟩ := by
  cases h with
  | commands hplace =>
    rw [if_pos (isCommandPlace_iff.mpr hplace), commandOffer, found, List.map_map,
      List.filter_map]
    rfl
  | directory hplace hw =>
    rw [if_neg fun hcommand => hplace (isCommandPlace_iff.mp hcommand), pathOffer, hw.splitPath_eq,
      found]
    dsimp only
    cases hd : m.root.get? _ with
    | none => rfl
    | some d =>
      cases d with
      | directory attributes entries =>
        simp only [Option.elim_some, Node.entries, Node.entries?, Option.getD_some, List.map_map,
          List.filter_map, Offer.mk.injEq, true_and]
        rfl
      | file attributes content => rfl
      | link attributes target => rfl

theorem exists_looks (m : Machine) (lead word : List Char) :
    ∃ source typed, Looks m lead word source typed := by
  by_cases hplace : CommandPlace lead
  · exact ⟨_, _, .commands hplace⟩
  · obtain ⟨p, typed, hw⟩ := exists_names m word
    exact ⟨_, _, .directory hplace hw⟩

end PocketUnix.Completion
