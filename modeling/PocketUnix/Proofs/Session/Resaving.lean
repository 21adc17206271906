import PocketUnix.Proofs.Editor.Requests
import PocketUnix.Proofs.Session.SavedText
import PocketUnix.Proofs.Session.SoundSessions
import PocketUnix.Proofs.Session.Transcripts

/-!
# Files that are opened and saved

A file is opened in the editor and saved at once. On the way links are followed to it, its text is
cut into lines and put together again, and it is stored over itself: only its time is new.
-/

namespace PocketUnix

namespace Editor

variable {e e' : Editor} {keys : List Key} {p : Path} {now : DateTime} {m : Machine}
  {content : String}

/-- The keys lead from the one editor to the other, whenever they are pressed and whatever the
machine is. No chord waits on the way. -/
inductive Types : List Key → Editor → Editor → Prop
  | nil {e : Editor} (hchord : e.chord = none) : Types [] e e
  | cons {key : Key} {keys : List Key} {e e' e'' : Editor} (hchord : e.chord = none)
    (hkey : ∀ elapsed now m, e.handleKey key elapsed now m = stay e' m)
    (hrest : Types keys e' e'') : Types (key :: keys) e e''

theorem Types.chord (h : Types keys e e') : e.chord = none := by
  cases h with
  | nil hchord => exact hchord
  | cons hchord _ _ => exact hchord

/-- The editor with a command line that has begun. -/
def commanding (command : List Char) (e : Editor) : Editor := { e with mode := .command, command }

/-- In command mode letters are put behind the command line, one by one. -/
theorem types_letters (hchord : e.chord = none) (command letters : List Char) :
    Types (letters.map .char) (e.commanding command) (e.commanding (command ++ letters)) := by
  induction letters generalizing command with
  | nil =>
    rw [List.append_nil]
    exact .nil hchord
  | cons c rest ih =>
    have hrest := ih (command ++ [c])
    rw [List.append_assoc] at hrest
    exact .cons hchord (fun _ _ _ => rfl) hrest

/-- A colon begins a command line, and letters are typed into it. -/
theorem types_commandLine (hmode : e.mode = .normal) (hchord : e.chord = none)
    (letters : List Char) :
    Types ((':' :: letters).map .char) e (e.commanding (':' :: letters)) := by
  have hcolon (elapsed : Nat) (now : DateTime) (m : Machine) :
      e.handleKey (.char ':') elapsed now m = stay (e.commanding [':']) m := by
    simp only [handleKey, hmode, normalKey, hchord]
    rfl
  exact .cons hchord hcolon (types_letters hchord [':'] letters)

/-- What is shown of a text that has been saved, once the editor is closed. -/
def savedNotice (p : Path) (text : String) : String :=
  let lines := (text.toList.splitOn '\n').length
  let size := s!"{lines}L, {Text.byteLength text}C"
  s!"\"{p.display}\" saved. {size} written"

/-- The command line that saves and closes, once it has been typed. -/
def closing (e : Editor) : Editor := e.commanding [':', 'w', 'q']

/-- What has been opened is stored as it was. -/
theorem handleKey_closing {root : Node}
    (hwrite : m.root.write p m.user m.group now content = .ok root) (chordTimeout elapsed : Nat) :
    let o := (start ⟨some p, content⟩ chordTimeout).closing.handleKey .enter elapsed now m
    o.machine = { m with root } ∧ o.exit = .close (some (savedNotice p content)) := by
  let e := (start ⟨some p, content⟩ chordTimeout).closing
  let settled : Editor := { e with command := [], mode := .normal }
  have hline : e.commandLine = ("wq", none) := by
    have hsplit : splitCommand (.ofList (Chars.trim ([':', 'w', 'q'].dropWhile (· == ':')))) =
        ("wq", none) := by decide +kernel
    exact hsplit
  have hsave : e.handleKey .enter elapsed now m = settled.save p .writeQuit now m := by
    rw [handleKey_of_commandLine rfl hline rfl]
    rfl
  have htext : settled.text = content := text_start ⟨some p, content⟩ chordTimeout
  have hsummary (target : Option Path) (status : String) :
      summary { settled with target, status } =
        s!"{settled.lines.length}L, {Text.byteLength content}C" := by
    have hsame : text { settled with target, status } = content := htext
    rw [summary, hsame]
  intro o
  have ho : o = settled.save p .writeQuit now m := hsave
  rw [ho, save, htext, hwrite]
  refine ⟨rfl, ?_⟩
  simp only [hsummary]
  rfl

end Editor

namespace Session

/-- The keys are pressed one after the other, and time may pass before each of them. -/
inductive Presses : List Key → List Event → Prop
  | nil : Presses [] []
  | key {keys : List Key} {events : List Event} (key : Key) (h : Presses keys events) :
    Presses (key :: keys) (.key key :: events)
  | tick {keys : List Key} {events : List Event} (h : Presses keys events) :
    Presses keys (.tick :: events)
  | advance {keys : List Key} {events : List Event} (ms : Nat) (h : Presses keys events) :
    Presses keys (.advance ms :: events)

variable {s : Session} {e e' : Editor} {keys : List Key} {events : List Event}

theorem handleKey_of_editor (heditor : s.editor = some e) (key : Key) :
    s.handleKey key = s.editorKeyAt key s.clock.elapsed := by
  rw [handleKey, if_pos (by rw [isEditing, heditor]; rfl), editorKey]

/-- Keys that take no time change the editor, and all else that changes meanwhile is the clock. -/
theorem after_presses (hpresses : Presses keys events) (heditor : s.editor = some e)
    (htypes : e.Types keys e') : ∃ clock, s.after events = { s with clock, editor := some e' } := by
  induction hpresses generalizing s e with
  | nil =>
    cases htypes
    exact ⟨s.clock, by rw [← heditor]; rfl⟩
  | key key _ ih =>
    cases htypes with
    | @cons _ _ _ next _ _ hkey hrest =>
      have hstep : s.handleKey key = { s with editor := some next } := by
        rw [handleKey_of_editor heditor, editorKeyAt, heditor]
        simp only [hkey, Editor.stay]
      rw [after_cons, Event.apply, hstep]
      exact ih (s := { s with editor := some next }) rfl hrest
  | tick _ ih =>
    have hstep : s.tick = s := by
      have hnone : e.tick s.clock.elapsed = e := by rw [Editor.tick, htypes.chord]
      rw [tick, heditor, Option.map_some, hnone, ← heditor]
    rw [after_cons, Event.apply, hstep]
    exact ih heditor htypes
  | advance ms _ ih =>
    exact ih (s := s.advance ms) heditor htypes

/-- The names of the editor. -/
def editorNames : List String := ["vim", "vi", "nano"]

/-- The line runs the editor, and this is the first operand. -/
structure Edits (line operand : String) : Prop where
  whole : Shell.parts '|' (Text.trim line) = [Text.trim line]
  words : ∃ name ∈ editorNames, ∃ args, Shell.words (Text.trim line) = name :: args ∧
    (Shell.Options.ofArgs "" args).operand? 0 = some operand

/-- The three names of the editor run the same command. -/
theorem run_editor {name : String} (hname : name ∈ editorNames) (x : Context) (args : List String)
    (m : Machine) :
    Command.run x (name :: args) m = .ofQuery m (Desk.openEditor (x.call name args) m) := by
  have hnames : name = "vim" ∨ name = "vi" ∨ name = "nano" := by simpa [editorNames] using hname
  rcases hnames with rfl | rfl | rfl
  · have hvim : Command.ofName? "vim" = some (.session .vim) := by decide +kernel
    exact Command.run_plain x args m hvim nofun nofun
  · have hvi : Command.ofName? "vi" = some (.session .vi) := by decide +kernel
    exact Command.run_plain x args m hvi nofun nofun
  · have hnano : Command.ofName? "nano" = some (.session .nano) := by decide +kernel
    exact Command.run_plain x args m hnano nofun nofun

section Opening

variable {line operand content : String} {target : Path} {attributes : Attributes}

theorem Edits.not_blank (h : Edits line operand) : Text.trim line ≠ "" := by
  intro hempty
  obtain ⟨name, -, args, hwords, -⟩ := h.words
  rw [hempty] at hwords
  cases hwords

/-- The line opens the file to which the operand leads, and changes nothing else. -/
theorem Edits.submitLine (h : Edits line operand) (hclosed : s.isEditing = false)
    (hlinks : s.machine.root.resolveLinks s.machine.user (s.machine.resolve operand) = some target)
    (hfile : s.machine.root.get? target = some (.file attributes content)) :
    s.submitLine line =
      { s.push .input (s.prompt ++ line) with
        submitted := s.submitted ++ [Text.trim line]
        editor := some (.start ⟨some target, content⟩ s.config.chordTimeout) } := by
  obtain ⟨name, hname, args, hwords, hoperand⟩ := h.words
  have hopen : Desk.openEditor (Context.call ⟨"", s.clock.now, s.submitted⟩ name args) s.machine =
      .ok (.asking (.edit ⟨some target, content⟩)) := by
    have hfirst : ((Context.call ⟨"", s.clock.now, s.submitted⟩ name args).options "").operand? 0 =
        some operand := hoperand
    simp only [Desk.openEditor, hfirst, hlinks, Option.getD_some, hfile]
  have hline : Evaluation.ofLine s.clock.now s.submitted (Text.trim line) s.machine =
      ⟨[.edit ⟨some target, content⟩], .ok .empty, s.machine⟩ := by
    rw [Evaluation.ofLine_whole h.whole, hwords, run_editor hname, hopen]
    rfl
  rw [submitLine_of_ne_blank hclosed h.not_blank, ran, hline]
  rfl

end Opening

/-- The file has been opened by a line and saved at once: of the machine, only its time is new. -/
structure Resaved (line : String) (target : Path) (attributes : Attributes) (content : String)
    (s saved : Session) : Prop where
  file : saved.machine.root.get? target =
    some (.file { attributes with modified := saved.clock.now } content)
  /-- No other node is another one, nor is a link. -/
  elsewhere : ∀ q, q ≠ target → saved.machine.root.bareAt q = s.machine.root.bareAt q
  /-- All links lead where they led before. -/
  links : ∀ user q, saved.machine.root.resolveLinks user q = s.machine.root.resolveLinks user q
  system : saved.machine.system = s.machine.system
  cwd : saved.machine.cwd = s.machine.cwd
  editor : saved.editor = none
  transcript : saved.transcript =
    s.transcript ++ [⟨.input, s.prompt ++ line⟩, ⟨.info, Editor.savedNotice target content⟩]

section Saving

variable {target : Path} {attributes : Attributes} {content : String} {chordTimeout : Nat}

/-- Enter stores the text over the file, and closes the editor with a notice. -/
theorem handleKey_closing {root : Node}
    (heditor : s.editor = some (Editor.start ⟨some target, content⟩ chordTimeout).closing)
    (hwrite : s.machine.root.write target s.machine.user s.machine.group s.clock.now content =
      .ok root) :
    s.handleKey .enter = { s.push .info (Editor.savedNotice target content) with
      machine := { s.machine with root }, editor := none } := by
  obtain ⟨hmachine, hexit⟩ :=
    Editor.handleKey_closing hwrite chordTimeout s.clock.elapsed
  rw [handleKey_of_editor heditor, editorKeyAt, heditor]
  simp only [hmachine, hexit]
  rfl

end Saving

/-- In whatever state a session is, a file that is opened in the editor, by its own path or through
links, and saved at once is the same as before but for its time, and so is everything else. -/
theorem resaved {config : Config} {clock : Clock} {s₀ s : Session}
    (hstart : start config clock = .ok s₀) {before : List Event} (hs : s₀.after before = s)
    (hclosed : s.isEditing = false) {line operand : String} (hline : Edits line operand)
    {target : Path} {attributes : Attributes} {content : String}
    (hlinks : s.machine.root.resolveLinks s.machine.user (s.machine.resolve operand) = some target)
    (hfile : s.machine.root.get? target = some (.file attributes content)) {typed : List Event}
    (htyped : Presses ([':', 'w', 'q'].map .char) typed) :
    Resaved line target attributes content s (s.after (.line line :: typed ++ [.key .enter])) := by
  have hroot : s.machine.root.isDirectory = true := hs ▸ (sound_after hstart before).isDirectory
  let e : Editor := .start ⟨some target, content⟩ s.config.chordTimeout
  let opened : Session := { s.push .input (s.prompt ++ line) with
    submitted := s.submitted ++ [Text.trim line], editor := some e }
  have hopened : s.submitLine line = opened := hline.submitLine hclosed hlinks hfile
  obtain ⟨clock, hwaiting⟩ : ∃ clock,
      opened.after typed = { opened with clock, editor := some e.closing } :=
    after_presses htyped rfl (Editor.types_commandLine rfl rfl ['w', 'q'])
  let waiting : Session := { opened with clock, editor := some e.closing }
  have hsplit : s.after (.line line :: typed ++ [.key .enter]) = waiting.handleKey .enter := by
    rw [after_append, after_cons s, Event.apply, hopened, hwaiting, after_cons, after_nil,
      Event.apply]
  obtain ⟨root, hwrite⟩ := (Node.storable_of_file hroot hfile).exists_store s.machine.user
    s.machine.group clock.now fun _ => content
  have henter : waiting.handleKey .enter =
      { waiting.push .info (Editor.savedNotice target content) with
        machine := { s.machine with root }, editor := none } := handleKey_closing rfl hwrite
  rw [hsplit, henter]
  exact
    { file := Node.get?_store_of_file hwrite hfile
      elsewhere := fun _ hq => Node.bareAt_store hwrite hq
      links := Node.resolveLinks_store hwrite hfile
      system := rfl
      cwd := rfl
      editor := rfl
      transcript := List.append_assoc _ _ _ }

/-- A session with a link to a file. -/
def linked : Session := Sample.session.after [.line "ln -s docs/manual.txt here"]

/-- The link is opened, and time passes while the command line is typed. -/
theorem resaved_linked :
    ∃ attributes content,
      linked.machine.root.get? ["home", "user", "docs", "manual.txt"] =
          some (.file attributes content) ∧
        Resaved "vim here" ["home", "user", "docs", "manual.txt"] attributes content linked
          (linked.after (.line "vim here" :: [.advance 700, .tick, .key (.char ':'),
            .key (.char 'w'), .advance 50, .key (.char 'q')] ++ [.key .enter])) := by
  have hs : Sample.session.after [.line "ln -s docs/manual.txt here"] = linked := rfl
  have hclosed : linked.isEditing = false := by decide +kernel
  have hline : Edits "vim here" "here" :=
    ⟨by decide +kernel, "vim", by decide, ["here"], by decide +kernel, by decide +kernel⟩
  have hlinks : linked.machine.root.resolveLinks linked.machine.user
      (linked.machine.resolve "here") = some ["home", "user", "docs", "manual.txt"] := by
    decide +kernel
  obtain ⟨attributes, content, hfile⟩ : ∃ attributes content,
      linked.machine.root.get? ["home", "user", "docs", "manual.txt"] =
        some (.file attributes content) := by
    have hcontent : (linked.machine.root.get? ["home", "user", "docs", "manual.txt"]).bind
        Node.content? = some "This is a simulated Linux environment." := by decide +kernel
    obtain ⟨n, hn, htext⟩ := Option.bind_eq_some_iff.mp hcontent
    cases n with
    | file attributes content => exact ⟨attributes, content, hn⟩
    | link attributes target => cases htext
    | directory attributes entries => cases htext
  have htyped : Presses ([':', 'w', 'q'].map .char) [.advance 700, .tick, .key (.char ':'),
      .key (.char 'w'), .advance 50, .key (.char 'q')] :=
    .advance 700 (.tick (.key _ (.key _ (.advance 50 (.key _ .nil)))))
  generalize linked = s at *
  exact ⟨attributes, content, hfile,
    resaved Sample.start_session hs hclosed hline hlinks hfile htyped⟩

end Session

end PocketUnix
