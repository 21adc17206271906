import PocketUnix.Proofs.Editor.Buffer
import PocketUnix.Proofs.Editor.Commands
import PocketUnix.Proofs.Editor.Cursor
import PocketUnix.Proofs.Editor.Scripts
import PocketUnix.Proofs.Sample
import PocketUnix.Proofs.Text.Pieces

/-!
# Keys as edits of a flat text

Which keys edit the flat text of an editor, and how, depends on its mode and on the chord that is
waiting. Along every run of keys that a script can name, the editor does just these edits: all other
keys leave the text as it is.
-/

namespace PocketUnix

namespace Flat

/-- What a key does to the flat text in insert mode. -/
def insertEdit? : Key → Option (Flat → Flat)
  | .char c => some (type [c])
  | .tab => some (type [' ', ' ', ' ', ' '])
  | .enter => some (type ['\n'])
  | .backspace => some backspace
  | .delete => some delete
  | _ => none

/-- What a key does to the flat text in normal mode, while no chord is waiting. -/
def normalEdit? : Key → Option (Flat → Flat)
  | .char 'h' | .left => some back
  | .char 'l' | .right => some forth
  | .char 'x' | .delete => some deleteInLine
  | .char 'o' => some openLine
  | _ => none

/-- What a key does to the flat text in normal mode. Within the time of a chord it is swallowed, and
only the second `d` of a chord is an edit. -/
def chordEdit? (elapsed : Nat) (key : Key) : Option Chord → Option (Flat → Flat)
  | none => normalEdit? key
  | some chord =>
    if elapsed < chord.deadline then
      if key = .char 'd' ∧ chord.first = 'd' then some deleteLine else none
    else normalEdit? key

end Flat

namespace Editor

variable {e e' : Editor} {key : Key} {c : Char}

/-- What a key does to the flat text of an editor at an elapsed time. -/
def edit? (elapsed : Nat) (key : Key) (e : Editor) : Option (Flat → Flat) :=
  match e.mode with
  | .normal => Flat.chordEdit? elapsed key e.chord
  | .insert => Flat.insertEdit? key
  | .command => none
  | .promptForFilename => none

/-- The later editor is at some place of the same lines. -/
structure Moves (e e' : Editor) : Prop where
  placed : e'.Placed
  lines : e'.lines = e.lines

/-- The later editor has done an edit, or none. -/
def Obeys : Option (Flat → Flat) → Editor → Editor → Prop
  | some edit => Follows edit
  | none => Moves

/-- Edit or none, the cursor is at a place of the buffer. -/
theorem Obeys.placed {edit : Option (Flat → Flat)} (h : Obeys edit e e') : e'.Placed := by
  cases edit with
  | some edit => exact Follows.placed h
  | none => exact Moves.placed h

/-- A move to any place of the same lines. -/
theorem Placed.moves (h : e.Placed) (hlines : e'.lines = e.lines)
    (hline : e'.line < e.lines.length) (hcolumn : e'.column ≤ (e.lines.getD e'.line []).length) :
    Moves e e' := by
  refine ⟨⟨?_, ?_, ?_⟩, hlines⟩
  · rwa [hlines]
  · rwa [lineLength, currentLine, hlines]
  · rw [hlines]
    exact h.plain

/-- A move in the line. -/
theorem Placed.movesInLine (h : e.Placed) (hlines : e'.lines = e.lines) (hline : e'.line = e.line)
    (hcolumn : e'.column ≤ e.lineLength) : Moves e e' := by
  refine h.moves hlines ?_ ?_
  · rw [hline]
    exact h.line
  · rw [hline]
    exact hcolumn

theorem Placed.movesNot (h : e.Placed) (hlines : e'.lines = e.lines) (hline : e'.line = e.line)
    (hcolumn : e'.column = e.column) : Moves e e' :=
  h.movesInLine hlines hline (hcolumn ▸ h.column)

theorem moves_moveTo (h : e.Placed) (line : Nat) : Moves e (e.moveTo line) := by
  unfold moveTo
  split
  · next hline => exact h.moves rfl hline (Nat.min_le_right _ _)
  · exact h.movesNot rfl rfl rfl

theorem moves_moveUp (h : e.Placed) : Moves e e.moveUp := by
  unfold moveUp
  split
  · exact h.movesNot rfl rfl rfl
  · exact moves_moveTo h _

theorem moves_moveDown (h : e.Placed) : Moves e e.moveDown := moves_moveTo h _

theorem moves_home (h : e.Placed) : Moves e { e with column := 0 } :=
  h.movesInLine rfl rfl (Nat.zero_le _)

theorem moves_lineEnd (h : e.Placed) : Moves e e.lineEnd :=
  h.movesInLine rfl rfl (Nat.le_refl _)

/-- A tab types four blanks. -/
theorem follows_tab (h : e.Placed) :
    Follows (.type [' ', ' ', ' ', ' ']) e (e.insertKey .tab) := by
  have hblank : (' ' : Char) ≠ '\n' := by decide
  have hfirst := follows_insertChar hblank h
  have hsecond := hfirst.trans (follows_insertChar hblank hfirst.placed)
  have hthird := hsecond.trans (follows_insertChar hblank hsecond.placed)
  have hfourth := hthird.trans (follows_insertChar hblank hthird.placed)
  obtain ⟨v, hv, -⟩ := h.exists_shows
  refine ⟨hfourth.placed, hfourth.flat.trans ?_⟩
  rw [hv.flat]
  simp [Flat.type_between]

/-- In insert mode each key does its edit. Of the keys that type a character no script has a
newline. -/
theorem obeys_insertKey (h : e.Placed) (hkey : key.Scripted) :
    Obeys (Flat.insertEdit? key) e (e.insertKey key) := by
  cases key with
  | char c => exact follows_insertChar hkey.typed.1 h
  | tab => exact follows_tab h
  | enter => exact follows_breakLine h
  | backspace => exact follows_deleteBackward h
  | delete => exact follows_deleteForward h
  | escape => exact h.movesNot rfl rfl rfl
  | interrupt => exact h.movesNot rfl rfl rfl
  | left => exact h.movesInLine rfl rfl (Nat.le_trans (Nat.sub_le _ _) h.column)
  | right => exact h.movesInLine rfl rfl (Nat.min_le_right _ _)
  | up => exact moves_moveUp h
  | down => exact moves_moveDown h
  | home => exact moves_home h
  | finish => exact moves_lineEnd h

/-- All keys but the seven that edit in normal mode leave the text as it is. -/
theorem normalEdit?_eq_none (hh : key ≠ .char 'h') (hleft : key ≠ .left) (hl : key ≠ .char 'l')
    (hright : key ≠ .right) (hx : key ≠ .char 'x') (hdelete : key ≠ .delete)
    (ho : key ≠ .char 'o') : Flat.normalEdit? key = none := by
  unfold Flat.normalEdit?
  split
  · exact absurd rfl hh
  · exact absurd rfl hleft
  · exact absurd rfl hl
  · exact absurd rfl hright
  · exact absurd rfl hx
  · exact absurd rfl hdelete
  · exact absurd rfl ho
  · rfl

/-- In normal mode each key does its edit while no chord waits. -/
theorem obeys_plainKey (h : e.Placed) (now : Nat) (key : Key) :
    Obeys (Flat.normalEdit? key) e (e.plainKey now key) := by
  unfold plainKey
  split
  · exact h.movesNot rfl rfl rfl
  · exact h.movesInLine rfl rfl (Nat.min_le_right _ _)
  · exact follows_openLine h
  · exact h.movesNot rfl rfl rfl
  · exact follows_stepBack h
  · exact follows_stepBack h
  · exact follows_stepForward h
  · exact follows_stepForward h
  · exact moves_moveDown h
  · exact moves_moveDown h
  · exact moves_moveUp h
  · exact moves_moveUp h
  · exact moves_home h
  · exact moves_home h
  · exact moves_lineEnd h
  · exact moves_lineEnd h
  · have hlast : e.lines.length - 1 < e.lines.length := by
      have := h.line
      omega
    exact h.moves rfl hlast (Nat.zero_le _)
  · exact follows_deleteChar h
  · exact follows_deleteChar h
  · exact h.movesNot rfl rfl rfl
  · exact h.movesNot rfl rfl rfl
  · exact h.movesNot rfl rfl rfl
  · rw [normalEdit?_eq_none ‹_› ‹_› ‹_› ‹_› ‹_› ‹_› ‹_›]
    exact h.movesNot rfl rfl rfl

/-- Buffer, cursor and chord are those from before. -/
structure Rests (e : Editor) (o : KeyOutcome) : Prop where
  lines : o.editor.lines = e.lines
  line : o.editor.line = e.line
  column : o.editor.column = e.column
  chord : o.editor.chord = e.chord

section Saving

variable {now : DateTime} {m : Machine} {o : KeyOutcome}

theorem Rests.of_buffer (h : Rests e' o) (hlines : e'.lines = e.lines) (hline : e'.line = e.line)
    (hcolumn : e'.column = e.column) (hchord : e'.chord = e.chord) : Rests e o :=
  ⟨h.lines.trans hlines, h.line.trans hline, h.column.trans hcolumn, h.chord.trans hchord⟩

theorem Rests.moves (h : Rests e o) (hplaced : e.Placed) : Moves e o.editor :=
  hplaced.movesNot h.lines h.line h.column

theorem rests_save (p : Path) (action : SaveAction) : Rests e (e.save p action now m) := by
  obtain ⟨target, status, heditor⟩ := editor_save e p action now m
  constructor <;> rw [heditor]

theorem rests_writeCommand (name : Option String) (action : SaveAction) :
    Rests e (e.writeCommand name action now m) := by
  unfold writeCommand
  split
  · exact rests_save _ action
  · exact rests_save _ action
  · exact ⟨rfl, rfl, rfl, rfl⟩

/-- Whatever a command line comes to, it does not touch the buffer. -/
theorem rests_runCommand (command : String) : Rests e (e.runCommand command now m) := by
  rcases runCommand_cases e command now m with ⟨action, -, h⟩ | ⟨-, ⟨-, h⟩ | ⟨-, status, h⟩⟩
  · rw [h]
    exact rests_writeCommand _ action
  · rw [h]
    exact ⟨rfl, rfl, rfl, rfl⟩
  · rw [h]
    exact ⟨rfl, rfl, rfl, rfl⟩

theorem rests_commandKey (key : Key) : Rests e (e.commandKey key now m) := by
  cases key with
  | enter => exact (rests_runCommand _).of_buffer rfl rfl rfl rfl
  | _ => exact ⟨rfl, rfl, rfl, rfl⟩

/-- Nor does a name that is typed or ended. -/
theorem rests_promptKey (key : Key) : Rests e (e.promptKey key now m) := by
  cases key with
  | enter =>
    unfold promptKey
    dsimp only
    split
    · exact ⟨rfl, rfl, rfl, rfl⟩
    · exact (rests_save _ _).of_buffer rfl rfl rfl rfl
  | _ => exact ⟨rfl, rfl, rfl, rfl⟩

end Saving

/-- A chord that waits is one of two `g` or of two `d`. -/
def KnownChord (e : Editor) : Prop :=
  ∀ chord, e.chord = some chord → chord.first = 'g' ∨ chord.first = 'd'

theorem KnownChord.congr (h : e.KnownChord) (hchord : e'.chord = e.chord) : e'.KnownChord :=
  fun chord hsome => h chord (hchord ▸ hsome)

theorem knownChord_none (h : e.chord = none) : e.KnownChord := by
  intro chord hsome
  rw [h] at hsome
  cases hsome

/-- No key of insert mode begins a chord or ends one. -/
theorem chord_insertKey (key : Key) : (e.insertKey key).chord = e.chord := by
  by_cases hescape : key = .escape
  · rw [hescape]
    rfl
  · by_cases hinterrupt : key = .interrupt
    · rw [hinterrupt]
      rfl
    · exact (onBuffer_insertKey e hescape hinterrupt).chord

/-- The only letters that begin a chord are `g` and `d`. -/
theorem knownChord_plainKey (h : e.KnownChord) (now : Nat) (key : Key) :
    (e.plainKey now key).KnownChord := by
  unfold plainKey
  split
  case h_5 | h_6 => exact h.congr (onBuffer_stepBack e).chord
  case h_7 | h_8 => exact h.congr (onBuffer_stepForward e).chord
  case h_9 | h_10 => exact h.congr (onBuffer_moveDown e).chord
  case h_11 | h_12 => exact h.congr (onBuffer_moveUp e).chord
  case h_18 | h_19 => split <;> exact h.congr rfl
  case h_20 =>
    rintro chord ⟨⟩
    exact .inl rfl
  case h_21 =>
    rintro chord ⟨⟩
    exact .inr rfl
  all_goals exact h.congr rfl

theorem chord_fireChord (first : Char) : (e.fireChord first).chord = e.chord := by
  unfold fireChord
  split
  · rfl
  · exact (onBuffer_deleteLine e).chord

/-- A chord goes with the next key, which may begin another one. -/
theorem knownChord_normalKey (now : Nat) (key : Key) (h : e.KnownChord) :
    (e.normalKey now key).KnownChord := by
  unfold normalKey
  split
  · exact knownChord_plainKey h now key
  · dsimp only
    have hnone : KnownChord { e with chord := none } := knownChord_none rfl
    split
    · split
      · exact hnone.congr (chord_fireChord _)
      · exact hnone
    · exact knownChord_plainKey hnone now key

/-- That the chord has gone is no matter for the text. -/
theorem Obeys.of_chord {edit : Option (Flat → Flat)} (h : Obeys edit { e with chord := none } e') :
    Obeys edit e e' := by
  cases edit with
  | some edit =>
    have hedit : Follows edit { e with chord := none } e' := h
    exact ⟨hedit.placed, hedit.flat⟩
  | none =>
    have hmoves : Moves { e with chord := none } e' := h
    exact ⟨hmoves.placed, hmoves.lines⟩

/-- In normal mode each key does its edit. A chord that waits swallows the key unless it has lapsed,
and the second `d` deletes the line. -/
theorem obeys_normalKey (h : e.Placed) (hchord : e.KnownChord) (now : Nat) (key : Key) :
    Obeys (Flat.chordEdit? now key e.chord) e (e.normalKey now key) := by
  have hplaced : Placed { e with chord := none } := ⟨h.line, h.column, h.plain⟩
  unfold normalKey
  cases hc : e.chord with
  | none => exact obeys_plainKey h now key
  | some chord =>
    dsimp only [Flat.chordEdit?]
    by_cases htime : now < chord.deadline
    · rw [if_pos htime, if_pos htime]
      by_cases hkey : key = .char chord.first
      · rw [if_pos hkey]
        rcases hchord chord hc with hg | hd
        · have hother : ¬(key = .char 'd' ∧ chord.first = 'd') := by simp [hg]
          have hfirst : 0 < e.lines.length := Nat.zero_lt_of_lt h.line
          rw [if_neg hother, hg]
          exact h.moves rfl hfirst (Nat.zero_le _)
        · have hboth : key = .char 'd' ∧ chord.first = 'd' := ⟨hd ▸ hkey, hd⟩
          have hdeleted := follows_deleteLine hplaced
          rw [if_pos hboth, hd]
          exact ⟨⟨hdeleted.placed.line, hdeleted.placed.column, hdeleted.placed.plain⟩,
            hdeleted.flat⟩
      · have hother : ¬(key = .char 'd' ∧ chord.first = 'd') := by
          rintro ⟨hd, hfirst⟩
          rw [hfirst] at hkey
          exact hkey hd
        rw [if_neg hkey, if_neg hother]
        exact h.movesNot rfl rfl rfl
    · rw [if_neg htime, if_neg htime]
      exact (obeys_plainKey hplaced now key).of_chord

/-- An editor that was opened and has handled keys of scripts, with any time passing between. -/
inductive Reachable : Editor → Prop
  | start (request : EditRequest) (chordTimeout : Nat) : Reachable (.start request chordTimeout)
  | tick {e : Editor} (h : Reachable e) (elapsed : Nat) : Reachable (e.tick elapsed)
  | key {e : Editor} (h : Reachable e) {key : Key} (hkey : key.Scripted) (elapsed : Nat)
      (now : DateTime) (m : Machine) : Reachable (e.handleKey key elapsed now m).editor

theorem placed_start (request : EditRequest) (chordTimeout : Nat) :
    (start request chordTimeout).Placed := by
  refine ⟨?_, Nat.zero_le _, ?_⟩
  · exact List.length_pos_iff.mpr (List.splitOn_ne_nil _ _)
  · intro line hline
    exact Chars.not_mem_of_mem_splitOn hline

/-- One step: a key does its edit. -/
theorem obeys_handleKey (h : e.Placed) (hchord : e.KnownChord) (hkey : key.Scripted) (elapsed : Nat)
    (now : DateTime) (m : Machine) :
    Obeys (e.edit? elapsed key) e (e.handleKey key elapsed now m).editor := by
  unfold handleKey edit?
  cases e.mode with
  | normal => exact obeys_normalKey h hchord elapsed key
  | insert => exact obeys_insertKey h hkey
  | command => exact (rests_commandKey key).moves h
  | promptForFilename => exact (rests_promptKey key).moves h

/-- One step of the invariant that the edits of chords rest on. -/
theorem knownChord_handleKey (hchord : e.KnownChord) (key : Key) (elapsed : Nat) (now : DateTime)
    (m : Machine) : (e.handleKey key elapsed now m).editor.KnownChord := by
  unfold handleKey
  cases e.mode with
  | normal => exact knownChord_normalKey elapsed key hchord
  | insert => exact hchord.congr (chord_insertKey key)
  | command => exact hchord.congr (rests_commandKey key).chord
  | promptForFilename => exact hchord.congr (rests_promptKey key).chord

/-- What every step keeps holds along the whole run: the place in the buffer, and which chords may
wait. -/
theorem Reachable.placed (h : e.Reachable) : e.Placed ∧ e.KnownChord := by
  induction h with
  | start request chordTimeout => exact ⟨placed_start request chordTimeout, knownChord_none rfl⟩
  | tick _ elapsed ih =>
    obtain ⟨hplaced, hchord⟩ := ih
    unfold Editor.tick
    split
    · split
      · exact ⟨⟨hplaced.line, hplaced.column, hplaced.plain⟩, knownChord_none rfl⟩
      · exact ⟨hplaced, hchord⟩
    · exact ⟨hplaced, hchord⟩
  | key _ hkey elapsed now m ih =>
    obtain ⟨hplaced, hchord⟩ := ih
    exact ⟨(obeys_handleKey hplaced hchord hkey elapsed now m).placed,
      knownChord_handleKey hchord _ elapsed now m⟩

/-- The lines of a text make up the text. -/
theorem text_start (request : EditRequest) (chordTimeout : Nat) :
    (start request chordTimeout).text = request.content := by
  have hcontent : (start request chordTimeout).content = request.content.toList :=
    List.intercalate_splitOn '\n'
  rw [text, hcontent, String.ofList_toList]

/-- An editor opens with the cursor before all of its text. -/
theorem flat_start (request : EditRequest) (chordTimeout : Nat) :
    (start request chordTimeout).flat = ⟨request.content.toList, 0⟩ := by
  rw [flat, text_start]
  rfl

theorem flat_tick (e : Editor) (elapsed : Nat) : (e.tick elapsed).flat = e.flat := by
  unfold Editor.tick
  split
  · split <;> rfl
  · rfl

/-- An editor is a flat text with an offset. It opens with the text that it is given, and wherever
keys lead it, the next key does to the flat text what mode and waiting chord ask for, or leaves the
text as it is. -/
theorem flat_refinement :
    (∀ request chordTimeout,
        (start request chordTimeout).flat = ⟨request.content.toList, 0⟩) ∧
      ∀ e : Editor, e.Reachable →
        (∀ elapsed, (e.tick elapsed).flat = e.flat) ∧
          ∀ key : Key, key.Scripted → ∀ (elapsed : Nat) (now : DateTime) (m : Machine),
            match e.edit? elapsed key with
            | some edit => (e.handleKey key elapsed now m).editor.flat = edit e.flat
            | none => (e.handleKey key elapsed now m).editor.text = e.text := by
  refine ⟨flat_start, fun e he => ⟨flat_tick e, fun key hkey elapsed now m => ?_⟩⟩
  obtain ⟨hplaced, hchord⟩ := he.placed
  have hstep := obeys_handleKey hplaced hchord hkey elapsed now m
  cases hedit : e.edit? elapsed key with
  | some edit =>
    rw [hedit] at hstep
    exact Follows.flat hstep
  | none =>
    rw [hedit] at hstep
    have hlines := Moves.lines hstep
    rw [text, content, hlines]
    rfl

/-- An editor of two lines that waits for the second `d`. -/
def waiting : Editor :=
  ((start ⟨none, "ab\ncd"⟩ 500).handleKey (.char 'd') 0 Sample.time Sample.machine).editor

/-- The second `d` removes the first line. -/
theorem flat_refinement_waiting :
    waiting.Reachable ∧ Key.Scripted (.char 'd') ∧
      (waiting.handleKey (.char 'd') 100 Sample.time Sample.machine).editor.flat =
        ⟨['c', 'd'], 0⟩ := by
  have hkey : Key.Scripted (.char 'd') := ⟨"d", by decide +kernel⟩
  have hwaiting : waiting.Reachable := (Reachable.start _ _).key hkey _ _ _
  have hstep := (flat_refinement.2 waiting hwaiting).2 _ hkey 100 Sample.time Sample.machine
  have hedit : waiting.edit? 100 (.char 'd') = some Flat.deleteLine := rfl
  have hdeleted : Flat.deleteLine waiting.flat = ⟨['c', 'd'], 0⟩ := by decide +kernel
  rw [hedit] at hstep
  exact ⟨hwaiting, hkey, hstep.trans hdeleted⟩

end Editor

end PocketUnix
