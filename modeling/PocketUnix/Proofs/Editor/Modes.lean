import PocketUnix.Proofs.Editor.Access
import PocketUnix.Proofs.Editor.Edits

/-!
# What belongs to each mode

A chord waits in normal mode only, a command line is kept in command mode, and what is to be saved
while a name is asked for. Every key leads from a mode to one with what belongs to it, and the
cursor to a place of the buffer, so that no editor ever reaches for a line or a character that is
not there.
-/

namespace PocketUnix.Editor

variable {e e' : Editor} {key : Key}

/-- No chord waits, and nothing is asked for. -/
def Idle (e : Editor) : Prop := e.command = [] ∧ e.pendingSave = none ∧ e.chord = none

/-- The editor has what belongs to its mode, and nothing else. -/
def Fits (e : Editor) : Prop :=
  match e.mode with
  | .normal => e.command = [] ∧ e.pendingSave = none ∧ e.KnownChord
  | .insert => e.Idle
  | .command => (∃ rest, e.command = ':' :: rest) ∧ e.pendingSave = none ∧ e.chord = none
  | .promptForFilename => e.pendingSave.isSome = true ∧ e.chord = none

/-- Nothing else of an editor belongs to its mode. -/
theorem Fits.congr (h : e.Fits) (hmode : e'.mode = e.mode) (hcommand : e'.command = e.command)
    (hpending : e'.pendingSave = e.pendingSave) (hchord : e'.chord = e.chord) : e'.Fits := by
  unfold Fits Idle KnownChord at h ⊢
  rw [hmode, hcommand, hpending, hchord]
  exact h

theorem Fits.onBuffer (h : e.Fits) (hbuffer : OnBuffer e e') : e'.Fits := by
  obtain ⟨lines, line, column, rfl⟩ := hbuffer
  exact h.congr rfl rfl rfl rfl

theorem Idle.fits_insert (h : e.Idle) (hmode : e.mode = .insert) : e.Fits := by
  simpa only [Fits, hmode] using h

theorem Idle.fits_normal (h : e.Idle) (hmode : e.mode = .normal) : e.Fits := by
  obtain ⟨hcommand, hpending, hchord⟩ := h
  simp [Fits, hmode, hcommand, hpending, knownChord_none hchord]

/-- In normal mode, once the chord is gone. -/
theorem Fits.idle (h : e.Fits) (hmode : e.mode = .normal) : Idle { e with chord := none } := by
  simp only [Fits, hmode] at h
  exact ⟨h.1, h.2.1, rfl⟩

/-- A letter may begin a chord or a command line, or lead to insert mode: each comes with what
belongs to it. -/
theorem fits_plainKey (h : e.Idle) (hmode : e.mode = .normal) (now : Nat) (key : Key) :
    (e.plainKey now key).Fits := by
  have hfits := h.fits_normal hmode
  unfold plainKey
  split
  case h_1 | h_2 | h_3 => exact Idle.fits_insert h rfl
  case h_4 => exact ⟨⟨[], rfl⟩, h.2⟩
  case h_5 | h_6 => exact hfits.onBuffer (onBuffer_stepBack e)
  case h_7 | h_8 => exact hfits.onBuffer (onBuffer_stepForward e)
  case h_9 | h_10 => exact hfits.onBuffer (onBuffer_moveDown e)
  case h_11 | h_12 => exact hfits.onBuffer (onBuffer_moveUp e)
  case h_18 | h_19 =>
    split
    · exact hfits.onBuffer (onBuffer_deleteChar e)
    · exact hfits
  case h_20 | h_21 => simp [Fits, KnownChord, hmode, h.1, h.2.1]
  all_goals exact hfits.congr rfl rfl rfl rfl

theorem fits_fireChord (h : e.Fits) (first : Char) : (e.fireChord first).Fits := by
  unfold fireChord
  split
  · exact h.congr rfl rfl rfl rfl
  · have hdeleted := h.onBuffer (onBuffer_deleteLine e)
    exact hdeleted.congr rfl rfl rfl rfl

/-- A chord is gone before its letters do what they mean. -/
theorem fits_normalKey (h : e.Fits) (hmode : e.mode = .normal) (now : Nat) (key : Key) :
    (e.normalKey now key).Fits := by
  have hidle := h.idle hmode
  unfold normalKey
  cases hchord : e.chord with
  | none =>
    have hsame : { e with chord := none } = e := by rw [← hchord]
    rw [hsame] at hidle
    exact fits_plainKey hidle hmode now key
  | some chord =>
    have hfits := hidle.fits_normal hmode
    dsimp only
    split
    · split
      · exact fits_fireChord hfits _
      · exact hfits
    · exact fits_plainKey hidle hmode now key

/-- Escape and an interrupt lead back to normal mode with nothing left behind, and all other keys
stay in insert mode. -/
theorem fits_insertKey (h : e.Fits) (hmode : e.mode = .insert) (key : Key) :
    (e.insertKey key).Fits := by
  have hidle : e.Idle := by simpa only [Fits, hmode] using h
  by_cases hescape : key = .escape
  · subst hescape
    exact Idle.fits_normal hidle rfl
  · by_cases hinterrupt : key = .interrupt
    · subst hinterrupt
      exact Idle.fits_normal hidle rfl
    · exact h.onBuffer (onBuffer_insertKey e hescape hinterrupt)

section Saving

variable {now : DateTime} {m : Machine}

theorem fits_save (h : e.Fits) (p : Path) (action : SaveAction) :
    (e.save p action now m).editor.Fits := by
  obtain ⟨target, status, heditor⟩ := editor_save e p action now m
  rw [heditor]
  exact h.congr rfl rfl rfl rfl

/-- Where there is neither a name nor a target, the prompt is given what is to be done. -/
theorem fits_writeCommand (h : e.Idle) (hmode : e.mode = .normal) (name : Option String)
    (action : SaveAction) : (e.writeCommand name action now m).editor.Fits := by
  have hfits := h.fits_normal hmode
  unfold writeCommand
  split
  · exact fits_save hfits _ action
  · exact fits_save hfits _ action
  · exact ⟨rfl, h.2.2⟩

/-- A command line is gone before what it says is done. -/
theorem fits_runCommand (h : e.Idle) (hmode : e.mode = .normal) (command : String) :
    (e.runCommand command now m).editor.Fits := by
  have hfits := h.fits_normal hmode
  rcases runCommand_cases e command now m with
    ⟨action, -, hrun⟩ | ⟨-, ⟨-, hrun⟩ | ⟨-, status, hrun⟩⟩
  · rw [hrun]
    exact fits_writeCommand h hmode _ action
  · rw [hrun]
    exact hfits
  · rw [hrun]
    exact hfits.congr rfl rfl rfl rfl

/-- The colon in front of a command line stays as long as the line does. -/
theorem fits_commandKey (h : e.Fits) (hmode : e.mode = .command) (key : Key) :
    (e.commandKey key now m).editor.Fits := by
  have hcommand : (∃ rest, e.command = ':' :: rest) ∧ e.pendingSave = none ∧ e.chord = none := by
    simpa only [Fits, hmode] using h
  obtain ⟨⟨rest, hrest⟩, hpending, hchord⟩ := hcommand
  have hidle : Idle { e with command := [], mode := .normal } := ⟨rfl, hpending, hchord⟩
  cases key with
  | escape | interrupt => exact hidle.fits_normal rfl
  | enter => exact fits_runCommand hidle rfl _
  | char c =>
    unfold commandKey
    simp [stay, Fits, hmode, hrest, hpending, hchord]
  | backspace =>
    cases rest with
    | nil =>
      have hempty : e.command.dropLast = [] := by simp [hrest]
      unfold commandKey
      simp only [hempty, stay]
      exact hidle.fits_normal rfl
    | cons c rest =>
      have hshorter : e.command.dropLast = ':' :: (c :: rest).dropLast := by simp [hrest]
      unfold commandKey
      simp [hshorter, stay, Fits, hmode, hpending, hchord]
  | _ => exact h

/-- What is to be done goes with the prompt, whether the name is taken or not. -/
theorem fits_promptKey (h : e.Fits) (hmode : e.mode = .promptForFilename) (key : Key) :
    (e.promptKey key now m).editor.Fits := by
  have hprompt : e.pendingSave.isSome = true ∧ e.chord = none := by simpa only [Fits, hmode] using h
  have hidle : Idle { e with pendingSave := none, command := [], mode := .normal } :=
    ⟨rfl, rfl, hprompt.2⟩
  cases key with
  | escape | interrupt => exact hidle.fits_normal rfl
  | enter =>
    unfold promptKey
    dsimp only
    split
    · exact (hidle.fits_normal rfl).congr rfl rfl rfl rfl
    · exact fits_save (hidle.fits_normal rfl) _ _
  | char c | backspace =>
    unfold promptKey
    simpa [stay, Fits, hmode] using hprompt
  | _ => exact h

end Saving

/-- One step: whatever the key, the editor then has what belongs to its mode. -/
theorem fits_handleKey (h : e.Fits) (key : Key) (elapsed : Nat) (now : DateTime) (m : Machine) :
    (e.handleKey key elapsed now m).editor.Fits := by
  unfold handleKey
  split
  · next hmode => exact fits_normalKey h hmode elapsed key
  · next hmode => exact fits_insertKey h hmode key
  · next hmode => exact fits_commandKey h hmode key
  · next hmode => exact fits_promptKey h hmode key

/-- The time that passes can only end a chord. -/
theorem fits_tick (h : e.Fits) (elapsed : Nat) : (e.tick elapsed).Fits := by
  unfold tick
  split
  · next chord hchord =>
    have hmode : e.mode = .normal := by
      cases hmode : e.mode <;> simp_all [Fits, Idle]
    split
    · exact (h.idle hmode).fits_normal hmode
    · exact h
  · exact h

/-- What every step keeps holds along the whole run. -/
theorem Reachable.fits (h : e.Reachable) : e.Fits := by
  induction h with
  | start request chordTimeout => exact ⟨rfl, rfl, knownChord_none rfl⟩
  | tick _ elapsed ih => exact fits_tick ih elapsed
  | key _ _ elapsed now m ih => exact fits_handleKey ih _ elapsed now m

/-- What holds of every editor that keys of scripts have led to. -/
structure WellFormed (e : Editor) : Prop where
  nonempty : e.lines ≠ []
  line : e.line < e.lines.length
  column : e.column ≤ e.lines[e.line].length
  plain : ∀ line ∈ e.lines, '\n' ∉ line
  lines : e.text.toList.splitOn '\n' = e.lines
  chord : ∀ chord, e.chord = some chord →
    e.mode = .normal ∧ (chord.first = 'g' ∨ chord.first = 'd')
  typing : e.mode = .command → ∃ rest, e.command = ':' :: rest
  quiet : e.mode = .normal ∨ e.mode = .insert → e.command = []
  pendingSave : e.pendingSave.isSome = true ↔ e.mode = .promptForFilename

/-- A place of the buffer, and what belongs to the mode, are all there is to it. -/
theorem Placed.wellFormed (h : e.Placed) (hfits : e.Fits) : e.WellFormed := by
  have hline := h.line
  have hcolumn : e.column ≤ e.lines[e.line].length := by
    have hlength := h.column
    simpa [lineLength, currentLine, hline] using hlength
  have hnonempty : e.lines ≠ [] := List.ne_nil_of_length_pos (Nat.zero_lt_of_lt hline)
  have hlines : e.text.toList.splitOn '\n' = e.lines := by
    rw [text, String.toList_ofList, content]
    exact List.splitOn_intercalate '\n' h.plain hnonempty
  refine ⟨hnonempty, hline, hcolumn, h.plain, hlines, ?_, ?_, ?_, ?_⟩
  all_goals
    cases hmode : e.mode
    all_goals simp_all [Fits, Idle, KnownChord]

/-- Wherever keys of scripts and the time that passes lead an editor, its cursor is at a place of
its buffer, whose lines are the text between its newlines, it has what belongs to its mode, and the
next key makes no access out of range. -/
theorem reachable_wellFormed (h : e.Reachable) :
    e.WellFormed ∧ ∀ (key : Key) (elapsed : Nat) (now : DateTime) (m : Machine),
      Checked.handleKey key elapsed now e m = some (e.handleKey key elapsed now m) :=
  ⟨h.placed.1.wellFormed h.fits, Checked.handleKey_eq h.placed.1⟩

/-- The editor after some keys at the start of the time. -/
def typed (keys : List Key) (e : Editor) : Editor :=
  keys.foldl (fun e key => (e.handleKey key 0 Sample.time Sample.machine).editor) e

theorem Reachable.typed {keys : List Key} (hkeys : ∀ key ∈ keys, key.Scripted)
    (h : e.Reachable) : (e.typed keys).Reachable := by
  induction keys generalizing e with
  | nil => exact h
  | cons key keys ih =>
    obtain ⟨hkey, hrest⟩ := List.forall_mem_cons.mp hkeys
    exact ih hrest (h.key hkey 0 Sample.time Sample.machine)

theorem Reachable.typed_ofScript (h : e.Reachable) (script : String) :
    (e.typed (Key.ofScript script)).Reachable :=
  h.typed fun _ hkey => ⟨script, hkey⟩

/-- An editor of two lines that asks for a name, to save them and to close. -/
def asking : Editor :=
  (start ⟨none, "ab\ncd"⟩ 500).typed (Key.ofScript "jdg:wq<Enter>n")

/-- What is to be done is kept while the name is typed. -/
theorem reachable_wellFormed_asking :
    asking.Reachable ∧ asking.mode = .promptForFilename ∧ asking.pendingSave.isSome = true ∧
      asking.line < asking.lines.length := by
  have hasking : asking.Reachable := (Reachable.start _ _).typed_ofScript _
  have hmode : asking.mode = .promptForFilename := by decide +kernel
  have hwell := (reachable_wellFormed hasking).1
  exact ⟨hasking, hmode, hwell.pendingSave.mpr hmode, hwell.line⟩

end PocketUnix.Editor
