import PocketUnix.Proofs.Filter.Alignment
import PocketUnix.Proofs.Filter.Pasting
import PocketUnix.Proofs.Session.LineCounts

/-!
# Text in columns

`paste` puts the lines of texts side by side, and `cut` takes one of them out again. `column -t`
puts the cells of lines below each other.
-/

namespace PocketUnix.Evaluation

open PocketUnix.Command (run run_plain)

variable {x : Context} {args : List String} {m : Machine} {d : Char} {k : Nat} {text : String}
  {texts : List String}

/-- A call of `paste` that puts the lines of texts side by side, with a letter between any two. -/
structure Pastes (x : Context) (args : List String) (m : Machine) (d : Char)
    (texts : List String) : Prop where
  glue : (Shell.Options.ofArgs "d" args).value? 'd' = some (.singleton d)
  rows : (Shell.Options.ofArgs "d" args).has 's' = false
  read : ((Shell.Options.ofArgs "d" args).operands.mapM fun file =>
    (x.call "paste" args).readInput m (some file)) = .ok texts

/-- A call of `cut` that takes the field with a number from each line of a text. -/
structure TakesField (x : Context) (args : List String) (m : Machine) (d : Char) (k : Nat)
    (text : String) : Prop where
  delimiter : (Shell.Options.ofArgs "dfc" args).value? 'd' = some (.singleton d)
  field : ∃ list, (Shell.Options.ofArgs "dfc" args).value? 'f' = some list ∧
    Number.Numeral Number.wordLimit list.toList k
  read : (x.call "cut" args).readInput m ((Shell.Options.ofArgs "dfc" args).operand? 0) = .ok text

/-- A call of `paste` prints the lines of its texts side by side. -/
theorem Pastes.answer_run (h : Pastes x args m d texts) (hne : texts ≠ []) :
    (run x ("paste" :: args) m).answer = .ok (.output (Text.joinLines
      (Filter.paste (.singleton d) (texts.map Text.lines)))) := by
  have hn : Command.ofName? "paste" = some (.text .paste) := by decide +kernel
  obtain ⟨hglue, hrows, hread⟩ := h
  generalize ho : Shell.Options.ofArgs "d" args = o at hglue hrows hread
  have hoperands : o.operands.isEmpty = false := by
    cases hfiles : o.operands with
    | nil =>
      rw [hfiles] at hread
      cases hread
      exact absurd rfl hne
    | cons file files => rfl
  rw [run_plain x _ m hn nofun nofun]
  change Reading.paste (x.call "paste" args) m = _
  unfold Reading.paste
  rw [show (x.call "paste" args).options "d" = o from ho]
  simp only [hglue, hoperands, hread, hrows]
  rfl

/-- A call of `cut` prints the field of each line. -/
theorem TakesField.answer_run (h : TakesField x args m d (k + 1) text) :
    (run x ("cut" :: args) m).answer = .ok (.output (Text.joinLines
      ((Text.lines text).map (Filter.cutFields [⟨k + 1, k + 1⟩] d)))) := by
  have hn : Command.ofName? "cut" = some (.text .cut) := by decide +kernel
  obtain ⟨hdelimiter, ⟨list, hlist, hnumeral⟩, hread⟩ := h
  generalize ho : Shell.Options.ofArgs "dfc" args = o at hdelimiter hlist hread
  have hpositions := Filter.Positions.read?_numeral hnumeral
  rw [run_plain x _ m hn nofun nofun]
  change Reading.cut (x.call "cut" args) m = _
  unfold Reading.cut
  rw [show (x.call "cut" args).options "dfc" = o from ho]
  simp only [hread, hdelimiter, hlist, Option.bind_some, String.toList_singleton, List.head?_cons,
    Option.getD_some, hpositions]
  rfl

/-- Letters and a number are enough for a call of `cut` that takes a field of what is piped in. -/
theorem takesField_piped (text : String) (now : DateTime) (history : List String) (m : Machine)
    (d : Char) (h : k ≤ Number.wordLimit) :
    TakesField ⟨text, now, history⟩ ["-d", .singleton d, "-f", .ofList (Number.digits k)] m d k
      text := by
  have ho : Shell.Options.ofArgs "dfc" ["-d", .singleton d, "-f", .ofList (Number.digits k)] =
      { values := [('f', .ofList (Number.digits k)), ('d', .singleton d)] } := rfl
  constructor
  · rw [ho]
    rfl
  · refine ⟨_, by rw [ho]; rfl, ?_⟩
    rw [String.toList_ofList]
    exact .plain (Number.decimal_digits k) h
  · rw [ho]
    rfl

/-- What has been pasted with a letter that is in none of the texts is cut apart again: the field
with the number of a text holds its lines, and empty lines behind them if another text is longer. -/
theorem cut_pasted (hpaste : Pastes x args m d texts) (htwo : 2 ≤ texts.length)
    (hnewline : d ≠ '\n') (hreturn : d ≠ '\r')
    (hfree : ∀ text ∈ texts, d ∉ text.toList ∧ '\r' ∉ text.toList) :
    ∃ pasted height, (run x ("paste" :: args) m).answer = .ok (.output pasted) ∧
      (texts.map fun text => (Text.lines text).length).max? = some height ∧
      ∀ (k : Nat) (text : String), texts[k]? = some text →
        ∀ (y : Context) (cutArgs : List String) (m' : Machine),
          TakesField y cutArgs m' d (k + 1) pasted →
          (run y ("cut" :: cutArgs) m').answer = .ok (.output (Text.joinLines (Text.lines text ++
            List.replicate (height - (Text.lines text).length) ""))) := by
  have hne : texts ≠ [] := by
    rintro rfl
    cases htwo
  have hcolumns : 2 ≤ (texts.map Text.lines).length := by rwa [List.length_map]
  have hlengths : (texts.map fun text => (Text.lines text).length) =
      (texts.map Text.lines).map List.length := by rw [List.map_map]; rfl
  obtain ⟨height, hheight⟩ : ∃ height,
      ((texts.map Text.lines).map List.length).max? = some height :=
    Option.ne_none_iff_exists'.mp (mt List.max?_eq_none_iff.mp (by simpa using hne))
  have hlines : ∀ lines ∈ texts.map Text.lines, ∀ line ∈ lines, '\n' ∉ line.toList := by
    rw [List.forall_mem_map]
    exact fun text _ line hline => Text.newline_not_mem_of_mem_lines hline
  have hletters : ∀ c, (∀ text ∈ texts, c ∉ text.toList) →
      ∀ lines ∈ texts.map Text.lines, ∀ line ∈ lines, c ∉ line.toList := by
    intro c hc
    rw [List.forall_mem_map]
    exact fun text htext line hline hmem => hc text htext (Text.mem_of_mem_lines hline hmem)
  refine ⟨_, height, hpaste.answer_run hne, by rw [hlengths, hheight], ?_⟩
  intro k text hk y cutArgs m' htakes
  have hread := Filter.lines_paste hcolumns hnewline hreturn hlines
    (hletters '\r' fun text htext => (hfree text htext).2)
  have hcolumn : (texts.map Text.lines)[k]? = some (Text.lines text) := by
    rw [List.getElem?_map, hk]
    rfl
  have hcut := Filter.map_cutFields_paste (hletters d fun text htext => (hfree text htext).1)
    hcolumns hheight hcolumn
  rw [htakes.answer_run, hread, hcut]

/-- Three lines, an empty file and four lines, of which two at the end are empty. -/
theorem cut_pasted_uneven :
    let pasted := "1. Learn Linux;;\n2. Master Grep;;x\n3. Sleep;;\n;;"
    let piped : Context := ⟨pasted, Sample.time, []⟩
    (run ⟨"\nx\n\n\n", Sample.time, []⟩
        ["paste", "-d", ";", "docs/todo.list", "/dev/null", "-"] Sample.machine).answer =
        .ok (.output pasted) ∧
      (run piped ["cut", "-d", ";", "-f", "1"] Sample.machine).answer =
        .ok (.output "1. Learn Linux\n2. Master Grep\n3. Sleep\n") ∧
      (run piped ["cut", "-d", ";", "-f", "2"] Sample.machine).answer = .ok (.output "\n\n\n") ∧
      (run piped ["cut", "-d", ";", "-f", "3"] Sample.machine).answer =
        .ok (.output "\nx\n\n") := by
  intro pasted piped
  have hpaste : Pastes ⟨"\nx\n\n\n", Sample.time, []⟩
      ["-d", ";", "docs/todo.list", "/dev/null", "-"] Sample.machine ';'
      ["1. Learn Linux\n2. Master Grep\n3. Sleep", "", "\nx\n\n\n"] := ⟨rfl, rfl, by decide +kernel⟩
  obtain ⟨text, height, hanswer, hheight, hfields⟩ :=
    cut_pasted hpaste (by decide) (by decide) (by decide) (by decide +kernel)
  obtain rfl : text = pasted := by
    have hsame := hanswer.symm.trans
      (show _ = Except.ok (Reply.output pasted) by decide +kernel)
    exact congrArg Reply.text (Except.ok.inj hsame)
  obtain rfl : height = 4 := Option.some.inj (hheight.symm.trans (by decide +kernel))
  have htakes : ∀ k, k ≤ Number.wordLimit → TakesField piped
      ["-d", .singleton ';', "-f", .ofList (Number.digits k)] Sample.machine ';' k pasted :=
    fun k => takesField_piped pasted Sample.time [] Sample.machine ';'
  refine ⟨hanswer, ?_, ?_, ?_⟩
  · exact (hfields 0 _ rfl piped _ _ (htakes 1 (by decide))).trans (by decide +kernel)
  · exact (hfields 1 _ rfl piped _ _ (htakes 2 (by decide))).trans (by decide +kernel)
  · exact (hfields 2 _ rfl piped _ _ (htakes 3 (by decide))).trans (by decide +kernel)

/-- The cells of a line: what stands between separators, or the words if none are given. -/
def cells (separators : Option String) (line : String) : List String :=
  match separators with
  | none => Text.words line
  | some separators =>
    if separators = "" then Text.words line else Text.splitWhere separators.toList.contains line

/-- A call of `column` with `-t` prints its cells below each other. -/
theorem answer_run_column {o : Shell.Options} (ho : Shell.Options.ofArgs "s" args = o)
    (htable : o.has 't' = true)
    (hread : (x.call "column" args).readInput m (o.operand? 0) = .ok text) :
    (run x ("column" :: args) m).answer = .ok (.output (Text.joinLines
      (Filter.align ((Text.lines text).map (cells (o.value? 's')))))) := by
  have hn : Command.ofName? "column" = some (.text .column) := by decide +kernel
  rw [run_plain x _ m hn nofun nofun]
  change Reading.column (x.call "column" args) m = _
  unfold Reading.column
  rw [show (x.call "column" args).options "s" = o from ho, filtered_of_read hread, htable]
  rfl

/-- Cells have no letters but those of their line. -/
theorem mem_of_mem_cells {separators : Option String} {line cell : String} {c : Char}
    (h : cell ∈ cells separators line) (hc : c ∈ cell.toList) : c ∈ line.toList := by
  have hwords : cell ∈ Text.words line → c ∈ line.toList := by
    intro hword
    obtain ⟨piece, hpiece, rfl⟩ := List.mem_map.mp hword
    rw [String.toList_ofList] at hc
    exact (Chars.of_mem_splitOnP (List.mem_filter.mp hpiece).1 hc).1
  unfold cells at h
  split at h
  · exact hwords h
  · split at h
    · exact hwords h
    · obtain ⟨piece, hpiece, rfl⟩ := List.mem_map.mp h
      rw [String.toList_ofList] at hc
      exact (Chars.of_mem_splitOnP hpiece hc).1

/-- With `-t` each line is printed as a row of its cells. A column starts at one place in all rows
that reach it, which is behind the widest cells of the columns in front of it, with two blanks after
each of them. No access to the table of widths is out of range. -/
theorem aligned_by_column (x : Context) (args : List String) (m : Machine) {o : Shell.Options}
    (ho : Shell.Options.ofArgs "s" args = o) (htable : o.has 't' = true)
    (hread : (x.call "column" args).readInput m (o.operand? 0) = .ok text) :
    let rows := (Text.lines text).map (cells (o.value? 's'))
    ∃ shown, (run x ("column" :: args) m).answer = .ok (.output (Text.joinLines shown)) ∧
      (∀ line ∈ shown, '\n' ∉ line.toList) ∧
      List.Forall₂ (Filter.Lays (Filter.columnStart (Filter.widest rows))) rows shown ∧
      Filter.Checked.align rows = some shown := by
  intro rows
  refine ⟨Filter.align rows, answer_run_column ho htable hread, ?_, Filter.lays_align rows,
    Filter.Checked.align_eq rows⟩
  rw [Filter.align, List.forall_mem_map]
  intro row hrow hmem
  obtain ⟨line, hline, rfl⟩ := List.mem_map.mp hrow
  obtain hblank | ⟨cell, hcell, hmem⟩ := Filter.mem_alignRow hmem
  · cases hblank
  · exact Text.newline_not_mem_of_mem_lines hline (mem_of_mem_cells hcell hmem)

/-- A cell outside of ASCII, an empty line, empty cells and a last cell that is the widest. -/
theorem aligned_by_column_uneven :
    let text := "é,bb;c\n\nlonger,x\n,y,;widest\n"
    let rows := [["é", "bb", "c"], [""], ["longer", "x"], ["", "y", "", "widest"]]
    let shown := ["é       bb  c", "", "longer  x", "        y      widest"]
    (run ⟨text, Sample.time, []⟩ ["column", "-ts", ",;"] Sample.machine).answer =
        .ok (.output (Text.joinLines shown)) ∧
      List.Forall₂ (Filter.Lays (Filter.columnStart (Filter.widest rows))) rows shown := by
  intro text rows shown
  obtain ⟨lines, hanswer, -, hlays, hchecked⟩ :=
    aligned_by_column ⟨text, Sample.time, []⟩ ["-ts", ",;"] Sample.machine rfl rfl rfl
  have hrows : (Text.lines text).map (cells (some ",;")) = rows := by decide +kernel
  have hshown : Filter.Checked.align rows = some shown := by decide +kernel
  obtain rfl : lines = shown := by
    rw [← hrows] at hshown
    exact Option.some.inj (hchecked.symm.trans hshown)
  rw [← hrows]
  exact ⟨hanswer, hlays⟩

end PocketUnix.Evaluation
