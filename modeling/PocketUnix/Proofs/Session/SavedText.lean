import PocketUnix.Proofs.Command.Job
import PocketUnix.Proofs.Command.Redirection
import PocketUnix.Proofs.Sample
import PocketUnix.Proofs.Shell.Words
import PocketUnix.Proofs.Tree.Names

/-!
# Text that one line saves and the next one shows

`echo` with a redirection stores a text, and `cat` reads it again. In between stand the cut at bars,
the scan for words, the search for the redirection, the place where the text is stored, and the
place where it is looked for. The text comes back from all of them but one: as the search sees no
quotes, a text in quotes that begins like a redirection is taken for one.
-/

namespace PocketUnix

open PocketUnix.Shell

namespace Evaluation

variable {m : Machine} {now later : DateTime} {history histories : List String}
  {text file : String}

/-- What a single command leaves of its outcome. -/
def ofOutcome (o : Outcome) : Evaluation :=
  match o.answer with
  | .error fault => ⟨[], .error fault, o.machine⟩
  | .ok reply => ⟨reply.effect.toList, .ok { reply with effect := none }, o.machine⟩

/-- A line that is cut at no bar runs as one command. -/
theorem ofLine_whole {line : String} (h : parts '|' line = [line]) :
    ofLine now history line m = ofOutcome (Command.run ⟨"", now, history⟩ (words line) m) := by
  have hstage : ofLine now history line m = runStages now history .empty [line] m := by
    simp [ofLine, h]
  have hempty : Reply.empty.text = "" := rfl
  rw [hstage, runStages, hempty, ofOutcome]
  dsimp only
  cases (Command.run ⟨"", now, history⟩ (words line) m).answer with
  | error fault => rfl
  | ok reply => simp [runStages]

/-- So does a line whose words hide all bars. -/
theorem ofLine_line {ws : List Spelling} (h : ∀ w ∈ ws, w.Readable)
    (hbars : ∀ w ∈ ws, ∀ s ∈ w, s.Hides '|') :
    ofLine now history (String.ofList (Spelling.line ws)) m =
      ofOutcome (Command.run ⟨"", now, history⟩ (ws.map fun w => String.ofList w.letters) m) := by
  rw [ofLine_whole (parts_ofList_line (by decide) h hbars), words_ofList_line h]

/-- A line whose first word names a command that runs no other one is a call of it. -/
theorem ofLine_command {ws : List Spelling} {name : String} {args : List String}
    {command : Command} (h : ∀ w ∈ ws, w.Readable) (hbars : ∀ w ∈ ws, ∀ s ∈ w, s.Hides '|')
    (hwords : (ws.map fun w => String.ofList w.letters) = name :: args)
    (hn : Command.ofName? name = some command) (hsudo : command ≠ .users .sudo)
    (hnice : command ≠ .process .nice) :
    ofLine now history (String.ofList (Spelling.line ws)) m =
      ofOutcome (Command.runPlain command ⟨name, args, "", now, history⟩ m) := by
  rw [ofLine_line h hbars, hwords, Command.run_plain _ _ _ hn hsudo hnice]
  rfl

/-- A name that needs no quotes where it is the name of a file in the working directory. -/
structure PlainName (name : String) : Prop where
  isName : Path.IsName name
  letters : ∀ c ∈ name.toList, isQuote c = false ∧ Chars.isBlank c = false ∧ c ≠ '|' ∧ c ≠ '>'
  no_dash : name.toList.head? ≠ some '-'
  no_tilde : name.toList.head? ≠ some '~'

/-- The line that stores a text. -/
def saveLine (text file : String) : String := "echo \"" ++ text ++ "\" > " ++ file

/-- The line that shows a file. -/
def showLine (file : String) : String := "cat " ++ file

/-- The text is stored without a fault, and shown as it was given. -/
def ShowsSaved (m : Machine) (text file : String) (now later : DateTime)
    (history histories : List String) : Prop :=
  let saved := ofLine now history (saveLine text file) m
  let shown := ofLine later histories (showLine file) saved.machine
  saved.answer = .ok .empty ∧ shown.answer = .ok (.output text)

namespace PlainName

variable (h : PlainName file)

include h

theorem ne_nil : file.toList ≠ [] := by
  intro hnil
  exact h.isName.1 (String.toList_eq_nil_iff.mp hnil)

theorem readable : Spelling.Readable [.plain file.toList] := by
  refine ⟨List.cons_ne_nil _ _, List.forall_mem_singleton.mpr ⟨h.ne_nil, fun c hc => ?_⟩⟩
  obtain ⟨hquote, hblank, -, -⟩ := h.letters c hc
  exact ⟨hquote, hblank⟩

theorem no_bar : '|' ∉ file.toList := fun hbar => (h.letters '|' hbar).2.2.1 rfl

theorem no_mark : '>' ∉ file.toList := fun hmark => (h.letters '>' hmark).2.2.2 rfl

/-- A name has a letter, and none of its letters is a blank. -/
theorem not_blank : Text.isBlank file = false := by
  obtain ⟨c, cs, hletters⟩ := List.exists_cons_of_ne_nil h.ne_nil
  have hblank : Chars.isBlank c = false := by
    refine (h.letters c ?_).2.1
    rw [hletters]
    exact List.mem_cons_self
  simp [Text.isBlank, hletters, hblank]

theorem resolve (m : Machine) : m.resolve file = m.cwd.child file :=
  Path.resolve_of_isName h.isName h.not_blank h.no_tilde m.cwd m.user

/-- A blank in front of the name belongs to the name of another file. -/
theorem resolve_blank (m : Machine) : m.resolve (" " ++ file) = m.cwd.child (" " ++ file) := by
  have hletters : (" " ++ file).toList = ' ' :: file.toList := by simp
  have hname : Path.IsName (" " ++ file) := by
    have hslash : '/' ∉ (" " ++ file).toList := by
      rw [hletters]
      exact List.not_mem_cons_of_ne_of_not_mem (by decide) h.isName.2.2.2
    refine ⟨?_, ?_, ?_, hslash⟩
    · intro hempty
      simp [hempty] at hletters
    · intro hdot
      simp [hdot] at hletters
    · intro hdots
      simp [hdots] at hletters
  have hblank : Text.isBlank (" " ++ file) = false := by
    have hfile := h.not_blank
    rw [Text.isBlank] at hfile
    rw [Text.isBlank, hletters, List.all_cons, hfile, Bool.and_false]
  have htilde : (" " ++ file).toList.head? ≠ some '~' := by
    simp [hletters]
  exact Path.resolve_of_isName hname hblank htilde m.cwd m.user

end PlainName

theorem blank_ne (file : String) : " " ++ file ≠ file := by
  intro hsame
  have hlength := congrArg String.length hsame
  rw [String.length_append] at hlength
  have hone : " ".length = 1 := by decide
  omega

/-- The first line is a call of `echo`, with the text as its first word. -/
theorem ofLine_saveLine (htext : '"' ∉ text.toList) (hfile : PlainName file) :
    ofLine now history (saveLine text file) m =
      ofOutcome (.ofTree m (Writing.echo ⟨"echo", [text, ">", file], "", now, history⟩ m)) := by
  let ws : List Spelling :=
    [[.plain "echo".toList], [.quoted '"' text.toList], [.plain [('>' : Char)]],
      [.plain file.toList]]
  have hline : saveLine text file = String.ofList (Spelling.line ws) := by
    rw [← String.toList_inj]
    simp [saveLine, ws, Spelling.line, Spelling.written, Span.written]
  have hreadable : ∀ w ∈ ws, w.Readable := by
    have hecho : Spelling.Readable [.plain ['e', 'c', 'h', 'o']] := by
      simp [Spelling.Readable, Span.Readable, isQuote, Chars.isBlank]
    have hquoted : Spelling.Readable [.quoted '"' text.toList] := by
      simp [Spelling.Readable, Span.Readable, isQuote, htext]
    have hmark : Spelling.Readable [.plain [('>' : Char)]] := by
      simp [Spelling.Readable, Span.Readable, isQuote, Chars.isBlank]
    simp [ws, hecho, hquoted, hmark, hfile.readable]
  have hbars : ∀ w ∈ ws, ∀ s ∈ w, s.Hides '|' := by
    simp [ws, Span.Hides, hfile.no_bar]
  have hwords : (ws.map fun w => String.ofList w.letters) = ["echo", text, ">", file] := by
    simp [ws, Spelling.letters, Span.letters]
  have hname : Command.ofName? "echo" = some (.text .echo) := by decide +kernel
  rw [hline, ofLine_command hreadable hbars hwords hname (by decide) (by decide)]
  rfl

/-- The second line is a call of `cat`, which reads the file. -/
theorem ofLine_showLine (hfile : PlainName file) :
    ofLine later histories (showLine file) m =
      ofOutcome (.ofQuery m
        ((Call.readFile ⟨"cat", [file], "", later, histories⟩ m file).map .output)) := by
  let ws : List Spelling := [[.plain "cat".toList], [.plain file.toList]]
  have hline : showLine file = String.ofList (Spelling.line ws) := by
    rw [← String.toList_inj]
    simp [showLine, ws, Spelling.line, Spelling.written, Span.written]
  have hreadable : ∀ w ∈ ws, w.Readable := by
    have hcat : Spelling.Readable [.plain ['c', 'a', 't']] := by
      simp [Spelling.Readable, Span.Readable, isQuote, Chars.isBlank]
    simp [ws, hcat, hfile.readable]
  have hbars : ∀ w ∈ ws, ∀ s ∈ w, s.Hides '|' := by
    simp [ws, Span.Hides, hfile.no_bar]
  have hwords : (ws.map fun w => String.ofList w.letters) = ["cat", file] := by
    simp [ws, Spelling.letters, Span.letters]
  have hname : Command.ofName? "cat" = some (.text .cat) := by decide +kernel
  have hcat := Reading.cat_operand (m := m) (c := ⟨"cat", [file], "", later, histories⟩) rfl
    hfile.no_dash
  rw [hline, ofLine_command hreadable hbars hwords hname (by decide) (by decide), ← hcat]
  rfl

/-- What the second line shows is what the file holds. -/
theorem shown_of_file {attributes : Attributes} (hfile : PlainName file)
    (h : m.root.get? (m.cwd.child file) = some (.file attributes text)) :
    (ofLine later histories (showLine file) m).answer = .ok (.output text) := by
  have hread : m.root.readText m.user (m.cwd.child file) = .ok text :=
    Node.readText_of_file h m.user
  rw [ofLine_showLine hfile]
  simp [Call.readFile, hfile.resolve m, hread, Except.map, Outcome.ofQuery, ofOutcome,
    Reply.output]

/-- The second line finds nothing where there is none. -/
theorem shown_of_absent (hfile : PlainName file)
    (h : m.root.get? (m.cwd.child file) = none) :
    (ofLine later histories (showLine file) m).answer =
      .error (.notFound (.read "cat" file)) := by
  have hread : m.root.readText m.user (m.cwd.child file) = .error .missing := by
    have hlinks : m.root.resolveLinks m.user (m.cwd.child file) = none :=
      Node.followLinks_of_none h m.user Node.linkLimit
    rw [Node.readText, hlinks]
    rfl
  rw [ofLine_showLine hfile]
  simp [Call.readFile, hfile.resolve m, hread, Except.map, Outcome.ofQuery, ofOutcome]

/-- A text without a mark is stored in the file, and so it is shown. -/
theorem showsSaved_of_unmarked (hcwd : m.root.isDirectoryAt m.cwd = true) (htext : '"' ∉ text.toList)
    (hn : text ≠ "-n") (he : text ≠ "-e") (hfile : PlainName file)
    (hdirectory : m.root.isDirectoryAt (m.cwd.child file) = false)
    (hmark : Writing.mark? text = none) : ShowsSaved m text file now later history histories := by
  let c : Call := ⟨"echo", [text, ">", file], "", now, history⟩
  have hwords : Writing.redirected (Writing.echoWords c.args) = .ok ([text], some ⟨false, file⟩) := by
    have hecho : Writing.echoWords c.args = [text, ">", file] := by
      simp [c, Writing.echoWords, hn, he]
    rw [hecho, Writing.redirected_of_unmarked hmark]
  have hparent : m.root.parentDirectory (m.resolve file) = .ok m.cwd := by
    rw [hfile.resolve m]
    exact Node.parentDirectory_eq_ok_iff.mpr ⟨⟨file, rfl⟩, hcwd⟩
  have hplain : m.root.isDirectoryAt (m.resolve file) = false := by
    rw [hfile.resolve m, hdirectory]
  obtain ⟨root, hwrite, -⟩ := c.writeFile_of_parentDirectory hparent hplain text false
  have hsingle : " ".intercalate [text] = text := by simp
  have hsaved : ofLine now history (saveLine text file) m =
      ofOutcome (.reply { m with root } .empty) := by
    rw [ofLine_saveLine htext hfile]
    rcases Writing.ofTree_echo (m := m) hwords with
      ⟨root', hwrite', hecho⟩ | ⟨⟨fault, root', hfault⟩, -⟩
    · rw [hsingle, hwrite] at hwrite'
      cases hwrite'
      rw [hecho]
    · rw [hsingle, hwrite] at hfault
      cases hfault
  obtain ⟨attributes, hstored⟩ := Call.get?_writeFile hwrite (.inl rfl)
  rw [hfile.resolve m] at hstored
  rw [ShowsSaved, hsaved]
  exact ⟨rfl, shown_of_file hfile hstored⟩

/-- A text with a mark is not stored in the file, but cut in two: what is behind its mark says where
to store, and the redirection behind it and the file are stored there. -/
theorem redirected_elsewhere (hfile : PlainName file) {appending : Bool} {glued : String}
    (hmark : Writing.mark? text = some (appending, glued)) (m : Machine) :
    ∃ words r, Writing.redirected (Writing.echoWords [text, ">", file]) = .ok (words, some r) ∧
      (m.resolve r.file = m.cwd.child file → " ".intercalate words ≠ text) := by
  have hoption : ¬(text = "-n" ∨ text = "-e") := by
    rintro (rfl | rfl) <;> cases hmark
  have hecho : Writing.echoWords [text, ">", file] = [text, ">", file] := by
    rw [Writing.echoWords, if_neg hoption]
  rw [hecho, Writing.redirected_of_marked hmark]
  by_cases hglued : glued = ""
  · rw [if_pos hglued]
    refine ⟨_, _, rfl, fun hplace _ => ?_⟩
    have hbracket : m.resolve ">" = m.cwd.child ">" :=
      Path.resolve_of_isName (by decide) (by decide) (by decide) m.cwd m.user
    have hname : ">" = file := (Path.child_injective (hbracket.symm.trans hplace)).2
    refine hfile.no_mark ?_
    rw [← hname]
    decide
  · rw [if_neg hglued]
    refine ⟨_, _, rfl, fun hplace hsame => ?_⟩
    -- The stored text can only be the given one if a blank stands behind the mark. Then it is
    -- stored in the file with a blank in front of its name.
    have hletters : text.toList = '>' :: ' ' :: file.toList := by
      rw [← hsame]
      simp
    have hread : Writing.mark? text = some (false, .ofList (' ' :: file.toList)) := by
      rw [Writing.mark?, hletters]
      rfl
    have hblank : glued = " " ++ file := by
      rw [hmark, Option.some.injEq, Prod.mk.injEq] at hread
      rw [hread.2, ← String.toList_inj]
      simp
    dsimp only at hplace
    rw [hblank, hfile.resolve_blank] at hplace
    exact blank_ne file (Path.child_injective hplace).2

/-- Of such a text nothing comes back, unless something stood in the file before. -/
theorem not_showsSaved_of_marked (htext : '"' ∉ text.toList) (hfile : PlainName file)
    (habsent : m.root.contains (m.cwd.child file) = false) {appending : Bool} {glued : String}
    (hmark : Writing.mark? text = some (appending, glued)) :
    ¬ShowsSaved m text file now later history histories := by
  rintro ⟨hsaved, hshown⟩
  obtain ⟨words, r, hwords, helsewhere⟩ := redirected_elsewhere hfile hmark m
  rw [ofLine_saveLine htext hfile] at hsaved hshown
  let c : Call := ⟨"echo", [text, ">", file], "", now, history⟩
  rcases Writing.ofTree_echo (m := m) (c := c) hwords with
    ⟨root, hwrite, hecho⟩ | ⟨-, fault, hfault⟩
  · rw [hecho] at hshown
    change (ofLine later histories (showLine file) { m with root }).answer = _ at hshown
    by_cases hplace : m.resolve r.file = m.cwd.child file
    · obtain ⟨attributes, hstored⟩ := Call.get?_writeFile hwrite (.inr (hplace ▸ habsent))
      rw [hplace] at hstored
      have hother : (ofLine later histories (showLine file) { m with root }).answer =
          .ok (.output (" ".intercalate words)) := shown_of_file hfile hstored
      rw [hother, Except.ok.injEq, Reply.output, Reply.output, Reply.mk.injEq] at hshown
      exact helsewhere hplace hshown.2.1
    · have hmissing : root.get? (m.cwd.child file) = none := by
        have hbare := Call.bareAt_writeFile hwrite (Ne.symm hplace)
        rw [Node.bareAt_eq_none_iff.mpr habsent, Node.bareAt, Option.map_eq_none_iff] at hbare
        exact hbare
      have hnothing : (ofLine later histories (showLine file) { m with root }).answer =
          .error (.notFound (.read "cat" file)) := shown_of_absent hfile hmissing
      rw [hnothing] at hshown
      cases hshown
  · have hanswer : (ofOutcome (.ofTree m (Writing.echo c m))).answer = .error fault := by
      rw [ofOutcome, hfault]
    rw [hanswer] at hsaved
    cases hsaved

/-- In a working directory that is there, every text without a double quote is saved and shown,
unless it begins with an angle bracket. Then it is not shown, as long as the file is new. -/
theorem showsSaved_iff (hcwd : m.root.isDirectoryAt m.cwd = true) (htext : '"' ∉ text.toList)
    (hn : text ≠ "-n") (he : text ≠ "-e") (hfile : PlainName file)
    (hdirectory : m.root.isDirectoryAt (m.cwd.child file) = false) (now later : DateTime)
    (history histories : List String) :
    (text.toList.head? ≠ some '>' → ShowsSaved m text file now later history histories) ∧
      (m.root.contains (m.cwd.child file) = false →
        (ShowsSaved m text file now later history histories ↔ text.toList.head? ≠ some '>')) := by
  have hshows (hhead : text.toList.head? ≠ some '>') :
      ShowsSaved m text file now later history histories :=
    showsSaved_of_unmarked hcwd htext hn he hfile hdirectory (Writing.mark?_eq_none_iff.mpr hhead)
  refine ⟨hshows, fun habsent => ⟨fun hshown => ?_, hshows⟩⟩
  cases hmark : Writing.mark? text with
  | none => exact Writing.mark?_eq_none_iff.mp hmark
  | some mark => exact absurd hshown (not_showsSaved_of_marked htext hfile habsent hmark)

/-- A bracket in the middle of a text comes back, one at its beginning does not. -/
theorem showsSaved_iff_bracket :
    ShowsSaved Sample.machine "a > b" "f" Sample.time Sample.time [] [] ∧
      ¬ShowsSaved Sample.machine ">x" "f" Sample.time Sample.time [] [] := by
  have hcwd : Sample.machine.root.isDirectoryAt Sample.machine.cwd = true := by decide +kernel
  have habsent : Sample.machine.root.contains (Sample.machine.cwd.child "f") = false := by
    decide +kernel
  have hdirectory : Sample.machine.root.isDirectoryAt (Sample.machine.cwd.child "f") = false := by
    decide +kernel
  have hfile : PlainName "f" :=
    ⟨by decide, by simp [isQuote, Chars.isBlank], by decide, by decide⟩
  constructor
  · exact (showsSaved_iff hcwd (by decide) (by decide) (by decide) hfile hdirectory Sample.time
      Sample.time [] []).1 (by decide)
  · intro hshown
    have hhead := ((showsSaved_iff hcwd (by decide) (by decide) (by decide) hfile hdirectory
      Sample.time Sample.time [] []).2 habsent).mp hshown
    exact hhead (by decide)

end Evaluation

end PocketUnix
