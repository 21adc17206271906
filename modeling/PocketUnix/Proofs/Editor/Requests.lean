import PocketUnix.Proofs.Editor.Modes
import PocketUnix.Proofs.Session.Saving
import PocketUnix.Proofs.Tree.StoredText

/-!
# Requests to save

The editor touches its machine for one reason only: Enter ends a command line that saves, or a
filename that such a command line has asked for. Which path is to be saved, and what is to be done
then, is said here by the verb of that command line, however many keys ago it was given.
-/

namespace PocketUnix.Editor

variable {e e' : Editor} {verb : String} {p : Path} {action : SaveAction} {elapsed : Nat}
  {now : DateTime} {m : Machine}

/-- The verb and the argument of the command line. -/
def commandLine (e : Editor) : String × Option String :=
  splitCommand (.ofList (Chars.trim (e.command.dropWhile (· == ':'))))

/-- The name at the prompt. -/
def typedName (e : Editor) : String := .ofList (Chars.trim e.command)

/-- The editor asks for a filename, as a command line with the verb has made it do. -/
inductive Prompted (verb : String) : Editor → Prop
  | opened {e : Editor} (h : e.Reachable) (hmode : e.mode = .command)
    (hline : e.commandLine = (verb, none)) (elapsed : Nat) (now : DateTime) (m : Machine)
    (hprompt : (e.handleKey .enter elapsed now m).editor.mode = .promptForFilename) :
    Prompted verb (e.handleKey .enter elapsed now m).editor
  | tick {e : Editor} (h : Prompted verb e) (elapsed : Nat) : Prompted verb (e.tick elapsed)
  | key {e : Editor} (h : Prompted verb e) {key : Key} (hkey : key.Scripted) (elapsed : Nat)
    (now : DateTime) (m : Machine)
    (hprompt : (e.handleKey key elapsed now m).editor.mode = .promptForFilename) :
    Prompted verb (e.handleKey key elapsed now m).editor

/-- Enter ends a command line with the verb, or the filename for it, that means the path: the one
that is named, else the target. -/
inductive Means (e : Editor) (m : Machine) : String → Path → Prop
  | named {verb name : String} (hmode : e.mode = .command)
    (hline : e.commandLine = (verb, some name)) : Means e m verb (m.resolve name)
  | known {verb : String} {p : Path} (hmode : e.mode = .command)
    (hline : e.commandLine = (verb, none)) (htarget : e.target = some p) : Means e m verb p
  | prompted {verb : String} (h : Prompted verb e) (hname : e.typedName ≠ "") :
    Means e m verb (m.resolve e.typedName)

/-- The key is an Enter that asks for the buffer to be saved to the path, and for what is to be done
then. -/
def Requests (key : Key) (e : Editor) (m : Machine) (p : Path) (action : SaveAction) : Prop :=
  key = .enter ∧ ∃ verb, e.Means m verb p ∧ SaveAction.ofVerb? verb = some action

theorem mode_tick (e : Editor) (elapsed : Nat) : (e.tick elapsed).mode = e.mode := by
  unfold tick
  split
  · split <;> rfl
  · rfl

theorem Prompted.mode (h : Prompted verb e) : e.mode = .promptForFilename := by
  induction h with
  | opened _ _ _ _ _ _ hprompt => exact hprompt
  | tick _ elapsed ih => rw [mode_tick, ih]
  | key _ _ _ _ _ hprompt _ => exact hprompt

theorem mode_save (e : Editor) (p : Path) (action : SaveAction) (now : DateTime) (m : Machine) :
    (e.save p action now m).editor.mode = e.mode := by
  obtain ⟨target, status, heditor⟩ := editor_save e p action now m
  rw [heditor]

/-- While a name is typed, what is to be done is kept. -/
theorem pendingSave_promptKey (key : Key)
    (h : (e.promptKey key now m).editor.mode = .promptForFilename) :
    (e.promptKey key now m).editor.pendingSave = e.pendingSave := by
  cases key with
  | escape | interrupt => cases h
  | enter =>
    have hnormal : (e.promptKey .enter now m).editor.mode = .normal := by
      unfold promptKey
      dsimp only
      split
      · rfl
      · exact mode_save _ _ _ _ _
    rw [hnormal] at h
    cases h
  | _ => rfl

theorem ofVerb?_of_quitsBy (h : e.QuitsBy verb) : SaveAction.ofVerb? verb = none := by
  rcases h with rfl | ⟨rfl, -⟩
  · decide
  · decide

/-- A command line that leads to the prompt has a verb that saves and no name, and what the verb
does is kept there. -/
theorem pendingSave_runCommand {command : String} (hmode : e.mode = .normal)
    (h : (e.runCommand command now m).editor.mode = .promptForFilename) :
    (splitCommand command).2 = none ∧
      (e.runCommand command now m).editor.pendingSave =
        SaveAction.ofVerb? (splitCommand command).1 := by
  rcases runCommand_cases e command now m with
    ⟨action, hverb, hrun⟩ | ⟨-, ⟨-, hrun⟩ | ⟨-, status, hrun⟩⟩
  · rw [hrun] at h ⊢
    unfold writeCommand at h ⊢
    split at h
    · rw [mode_save, hmode] at h
      cases h
    · rw [mode_save, hmode] at h
      cases h
    · next hnone htarget => exact ⟨by simpa using hnone, hverb.symm⟩
  · rw [hrun, hmode] at h
    cases h
  · rw [hrun] at h
    simp [stay, hmode] at h

/-- The command line is ended, whatever it says. -/
theorem handleKey_command (hmode : e.mode = .command) :
    e.handleKey .enter elapsed now m =
      runCommand (.ofList (Chars.trim (e.command.dropWhile (· == ':')))) now
        { e with command := [], mode := .normal } m := by
  simp only [handleKey, hmode]
  rfl

theorem handleKey_prompt (hmode : e.mode = .promptForFilename) (key : Key) :
    e.handleKey key elapsed now m = e.promptKey key now m := by
  simp only [handleKey, hmode]

/-- What is to be done at the prompt is what the verb means, however long ago it was given. -/
theorem Prompted.pendingSave (h : Prompted verb e) : e.pendingSave = SaveAction.ofVerb? verb := by
  induction h with
  | @opened e _ hmode hline elapsed now m hprompt =>
    rw [handleKey_command hmode] at hprompt ⊢
    rw [(pendingSave_runCommand rfl hprompt).2, ← commandLine, hline]
  | @tick e _ elapsed ih => rw [(sameFile_tick e elapsed).pendingSave, ih]
  | @key e h key _ elapsed now m hprompt ih =>
    rw [handleKey_prompt h.mode] at hprompt ⊢
    rw [pendingSave_promptKey key hprompt, ih]

theorem Reachable.pendingSave_iff (h : e.Reachable) :
    e.pendingSave.isSome = true ↔ e.mode = .promptForFilename :=
  (h.placed.1.wellFormed h.fits).pendingSave

/-- Outside the prompt, only Enter at the end of a command line changes what is to be done. -/
theorem pendingSave_handleKey {key : Key} (hprompt : e.mode ≠ .promptForFilename)
    (henter : ¬(e.mode = .command ∧ key = .enter)) (elapsed : Nat) (now : DateTime) (m : Machine) :
    (e.handleKey key elapsed now m).editor.pendingSave = e.pendingSave := by
  unfold handleKey
  split
  · exact (sameFile_normalKey e elapsed key).pendingSave
  · exact (sameFile_insertKey e key).pendingSave
  · next hmode =>
    cases key with
    | enter => exact absurd ⟨hmode, rfl⟩ henter
    | _ => rfl
  · next hmode => exact absurd hmode hprompt

/-- Whoever asks for a filename has been asked to save by a command line. -/
theorem Reachable.exists_prompted (h : e.Reachable) (hmode : e.mode = .promptForFilename) :
    ∃ verb, Prompted verb e := by
  induction h with
  | start request chordTimeout => cases hmode
  | tick _ elapsed ih =>
    rw [mode_tick] at hmode
    obtain ⟨verb, hverb⟩ := ih hmode
    exact ⟨verb, hverb.tick elapsed⟩
  | @key e he key hkey elapsed now m ih =>
    by_cases hbefore : e.mode = .promptForFilename
    · obtain ⟨verb, hverb⟩ := ih hbefore
      exact ⟨verb, hverb.key hkey elapsed now m hmode⟩
    · by_cases henter : e.mode = .command ∧ key = .enter
      · obtain ⟨hcommand, rfl⟩ := henter
        have hopened := hmode
        rw [handleKey_command hcommand] at hopened
        have hline : e.commandLine = (e.commandLine.1, none) :=
          Prod.ext rfl (pendingSave_runCommand rfl hopened).1
        exact ⟨_, .opened he hcommand hline elapsed now m hmode⟩
      · have hsame := pendingSave_handleKey hbefore henter elapsed now m
        have hasked := (he.key hkey elapsed now m).pendingSave_iff.mpr hmode
        rw [hsame, he.pendingSave_iff] at hasked
        exact absurd hasked hbefore

/-- The editor back in normal mode. -/
def settled (e : Editor) : Editor := { e with pendingSave := none, command := [], mode := .normal }

/-- A command line with a verb that saves asks for a save. -/
theorem handleKey_of_commandLine {argument : Option String} (hmode : e.mode = .command)
    (hline : e.commandLine = (verb, argument)) (hverb : SaveAction.ofVerb? verb = some action) :
    e.handleKey .enter elapsed now m =
      writeCommand argument action now { e with command := [], mode := .normal } m := by
  rw [handleKey_command hmode]
  unfold commandLine at hline
  rcases runCommand_cases { e with command := [], mode := .normal }
    (.ofList (Chars.trim (e.command.dropWhile (· == ':')))) now m with
    ⟨action', hverb', hrun⟩ | ⟨hnone, -⟩
  · rw [hrun, hline]
    rw [hline, hverb] at hverb'
    cases hverb'
    rfl
  · rw [hline, hverb] at hnone
    cases hnone

/-- A save that is asked for is tried. -/
theorem handleKey_of_means (h : e.Reachable) (hmeans : e.Means m verb p)
    (hverb : SaveAction.ofVerb? verb = some action) :
    e.handleKey .enter elapsed now m = e.settled.save p action now m := by
  have hcommand (hmode : e.mode = .command) (argument : Option String)
      (hline : e.commandLine = (verb, argument)) :
      e.handleKey .enter elapsed now m = e.settled.writeCommand argument action now m := by
    have hpending : e.pendingSave = none := by
      have hnone := mt h.pendingSave_iff.mp (by simp [hmode])
      simpa using hnone
    have hsettled : { e with command := [], mode := .normal } = e.settled := by
      rw [settled, ← hpending]
    rw [handleKey_of_commandLine hmode hline hverb, hsettled]
  cases hmeans with
  | named hmode hline =>
    rw [hcommand hmode _ hline]
    rfl
  | known hmode hline htarget =>
    rw [hcommand hmode _ hline]
    simp [writeCommand, settled, htarget]
  | prompted hprompted hname =>
    have hpending : e.pendingSave = some action := by rw [hprompted.pendingSave, hverb]
    have htyped : (Chars.trim e.command).isEmpty = false := by
      rw [List.isEmpty_eq_false_iff]
      intro hempty
      exact hname (by rw [typedName, hempty])
    rw [handleKey_prompt hprompted.mode]
    unfold promptKey
    simp only [htyped, hpending]
    rfl

/-- A key that asks for no save: at most it closes the editor, as the Enter of a command line that
quits. -/
structure Leaves (key : Key) (e : Editor) (m : Machine) (o : KeyOutcome) : Prop where
  machine : o.machine = m
  target : o.editor.target = e.target
  exit : (∃ notice, o.exit = .close notice) →
    key = .enter ∧ e.mode = .command ∧ e.QuitsBy e.commandLine.1

/-- Only Enter at the end of a command line or of a name does more than change the editor. -/
theorem leaves_quiet {key : Key} (h : key = .enter → e.mode = .normal ∨ e.mode = .insert) :
    Leaves key e m (e.handleKey key elapsed now m) := by
  unfold handleKey
  split
  · exact ⟨rfl, (sameFile_normalKey e elapsed key).target, nofun⟩
  · exact ⟨rfl, (sameFile_insertKey e key).target, nofun⟩
  · next hmode =>
    cases key with
    | enter => simp [hmode] at h
    | _ => exact ⟨rfl, rfl, nofun⟩
  · next hmode =>
    cases key with
    | enter => simp [hmode] at h
    | _ => exact ⟨rfl, rfl, nofun⟩

/-- A command line that saves nothing closes the editor or changes its status. -/
theorem leaves_command (hmode : e.mode = .command)
    (hno : ∀ p action, ¬Requests .enter e m p action) :
    Leaves .enter e m (e.handleKey .enter elapsed now m) := by
  rw [handleKey_command hmode]
  rcases runCommand_cases { e with command := [], mode := .normal }
    (.ofList (Chars.trim (e.command.dropWhile (· == ':')))) now m with
    ⟨action, hverb, hrun⟩ | ⟨-, ⟨hquits, hrun⟩ | ⟨-, status, hrun⟩⟩
  · have hrequest (p : Path) (hmeans : e.Means m e.commandLine.1 p) : False :=
      hno p action ⟨rfl, _, hmeans, hverb⟩
    rw [hrun, ← commandLine]
    cases hargument : e.commandLine.2 with
    | some name => exact (hrequest _ (.named hmode (Prod.ext rfl hargument))).elim
    | none =>
      cases htarget : e.target with
      | some p => exact (hrequest p (.known hmode (Prod.ext rfl hargument) htarget)).elim
      | none =>
        simp only [writeCommand, Option.map_none]
        exact ⟨rfl, htarget.symm, nofun⟩
  · rw [hrun]
    exact ⟨rfl, rfl, fun _ => ⟨rfl, hmode, hquits⟩⟩
  · rw [hrun]
    exact ⟨rfl, rfl, nofun⟩

/-- A name of blanks alone is none, and nothing is saved. -/
theorem leaves_prompt (h : e.Reachable) (hmode : e.mode = .promptForFilename)
    (hno : ∀ p action, ¬Requests .enter e m p action) :
    Leaves .enter e m (e.handleKey .enter elapsed now m) := by
  obtain ⟨verb, hprompted⟩ := h.exists_prompted hmode
  obtain ⟨action, haction⟩ := Option.isSome_iff_exists.mp (h.pendingSave_iff.mpr hmode)
  have hempty : (Chars.trim e.command).isEmpty = true := by
    by_contra hfull
    have hname : e.typedName ≠ "" := by
      intro hname
      have hchars := congrArg String.toList hname
      simp [typedName] at hchars
      simp [hchars] at hfull
    exact hno _ action ⟨rfl, verb, .prompted hprompted hname, hprompted.pendingSave ▸ haction⟩
  rw [handleKey_prompt hmode]
  unfold promptKey
  simp only [hempty, if_true]
  exact ⟨rfl, rfl, nofun⟩

/-- One key that asks for nothing to be saved, in any mode. -/
theorem leaves_handleKey {key : Key} (h : e.Reachable)
    (hno : ∀ p action, ¬Requests key e m p action) :
    Leaves key e m (e.handleKey key elapsed now m) := by
  by_cases henter : key = .enter
  · subst henter
    cases hmode : e.mode with
    | normal => exact leaves_quiet fun _ => .inl hmode
    | insert => exact leaves_quiet fun _ => .inr hmode
    | command => exact leaves_command hmode hno
    | promptForFilename => exact leaves_prompt h hmode hno
  · exact leaves_quiet fun hkey => absurd hkey henter

/-- The file at the path holds the text of the editor, it is the target from now on, and no other
path looks up another node, unless it leads to the file. -/
structure Stores (e : Editor) (m : Machine) (p : Path) (o : KeyOutcome) : Prop where
  file : ∃ attributes, o.machine.root.get? p = some (.file attributes e.text)
  target : o.editor.target = some p
  elsewhere : ∀ q : Path, ¬q <+: p → o.machine.root.get? q = m.root.get? q
  system : o.machine.system = m.system
  cwd : o.machine.cwd = m.cwd

/-- Nothing is saved, and the editor is open in normal mode with the same buffer and target. -/
structure Refuses (e : Editor) (m : Machine) (o : KeyOutcome) : Prop where
  machine : o.machine = m
  lines : o.editor.lines = e.lines
  line : o.editor.line = e.line
  column : o.editor.column = e.column
  target : o.editor.target = e.target
  mode : o.editor.mode = .normal
  exit : o.exit = .stay

theorem stores_of_storable (h : m.root.Storable p) (action : SaveAction) :
    Stores e m p (e.settled.save p action now m) ∧
      ((e.settled.save p action now m).exit = .stay ↔ action = .write) := by
  obtain ⟨root, hwrite⟩ := h.exists_store m.user m.group now fun _ => e.settled.text
  obtain ⟨status, exit, hexit, hsave⟩ := save_ok hwrite action
  rw [hsave]
  exact ⟨⟨Node.get?_store hwrite, rfl, fun q hq => Node.get?_store_elsewhere hwrite hq, rfl, rfl⟩,
    hexit⟩

theorem refuses_of_not_storable (h : ¬m.root.Storable p) (action : SaveAction) :
    Refuses e m (e.settled.save p action now m) := by
  cases hwrite : m.root.write p m.user m.group now e.settled.text with
  | ok root => exact absurd (Node.storable_of_store hwrite) h
  | error fault =>
    rw [save_error hwrite]
    exact ⟨rfl, rfl, rfl, rfl, rfl, rfl, rfl⟩

theorem Means.mode (h : e.Means m verb p) : e.mode = .command ∨ e.mode = .promptForFilename := by
  cases h with
  | named hmode _ => exact .inl hmode
  | known hmode _ _ => exact .inl hmode
  | prompted hprompted _ => exact .inr hprompted.mode

theorem Requests.handleKey {key : Key} (hrequest : Requests key e m p action) (h : e.Reachable) :
    e.handleKey key elapsed now m = e.settled.save p action now m := by
  obtain ⟨rfl, verb, hmeans, hverb⟩ := hrequest
  exact handleKey_of_means h hmeans hverb

/-- A command line that quits closes the editor at once. -/
theorem closes_of_quitsBy (hmode : e.mode = .command) (h : e.QuitsBy e.commandLine.1) :
    (e.handleKey .enter elapsed now m).exit = .close none := by
  rw [handleKey_command hmode]
  rcases runCommand_cases { e with command := [], mode := .normal }
    (.ofList (Chars.trim (e.command.dropWhile (· == ':')))) now m with
    ⟨action, hverb, -⟩ | ⟨-, ⟨-, hrun⟩ | ⟨hstays, -⟩⟩
  · rw [← commandLine, ofVerb?_of_quitsBy h] at hverb
    cases hverb
  · rw [hrun]
  · exact absurd h hstays

theorem Requests.stores {key : Key} (hrequest : Requests key e m p action) (h : e.Reachable)
    (hstorable : m.root.Storable p) (elapsed : Nat) (now : DateTime) :
    Stores e m p (e.handleKey key elapsed now m) ∧
      ((e.handleKey key elapsed now m).exit = .stay ↔ action = .write) := by
  rw [hrequest.handleKey h]
  exact stores_of_storable hstorable action

theorem Requests.refuses {key : Key} (hrequest : Requests key e m p action) (h : e.Reachable)
    (hstorable : ¬m.root.Storable p) (elapsed : Nat) (now : DateTime) :
    Refuses e m (e.handleKey key elapsed now m) := by
  rw [hrequest.handleKey h]
  exact refuses_of_not_storable hstorable action

theorem Requests.enter {key : Key} (hrequest : Requests key e m p action) :
    key = .enter ∧ (e.mode = .command ∨ e.mode = .promptForFilename) := by
  obtain ⟨henter, verb, hmeans, -⟩ := hrequest
  exact ⟨henter, hmeans.mode⟩

/-- A key touches the file tree only if it asks for a save of a path at which a file can be stored,
and no other part of the machine. The save stores the text of the editor at that path; where none
can be stored, it is refused. The editor closes just behind a command that quits and behind a save
that is to close it. -/
theorem handleKey_requests {key : Key} (h : e.Reachable) (elapsed : Nat) (now : DateTime)
    (m : Machine) :
    let o := e.handleKey key elapsed now m
    (o.machine.system = m.system ∧ o.machine.cwd = m.cwd) ∧
      (∀ p action, Requests key e m p action →
        (m.root.Storable p → Stores e m p o) ∧ (¬m.root.Storable p → Refuses e m o)) ∧
      (o.machine = m ∨ key = .enter ∧ (e.mode = .command ∨ e.mode = .promptForFilename) ∧
        ∃ p action, Requests key e m p action ∧ m.root.Storable p) ∧
      ((∃ notice, o.exit = .close notice) ↔
        (key = .enter ∧ e.mode = .command ∧ e.QuitsBy e.commandLine.1) ∨
          ∃ p, Requests key e m p .writeQuit ∧ m.root.Storable p) := by
  intro o
  have hcloses : (key = .enter ∧ e.mode = .command ∧ e.QuitsBy e.commandLine.1) ∨
      (∃ p, Requests key e m p .writeQuit ∧ m.root.Storable p) →
        ∃ notice, o.exit = .close notice := by
    rintro (⟨rfl, hmode, hquits⟩ | ⟨p, hrequest, hstorable⟩)
    · exact ⟨none, closes_of_quitsBy hmode hquits⟩
    · obtain ⟨-, hexit⟩ := hrequest.stores h hstorable elapsed now
      cases hclose : o.exit with
      | stay => simp [o, hclose] at hexit
      | close notice => exact ⟨notice, rfl⟩
  have hrequests (p : Path) (action : SaveAction) (hrequest : Requests key e m p action) :
      (m.root.Storable p → Stores e m p o) ∧ (¬m.root.Storable p → Refuses e m o) :=
    ⟨fun hstorable => (hrequest.stores h hstorable elapsed now).1,
      fun hstorable => hrequest.refuses h hstorable elapsed now⟩
  by_cases hany : ∃ p action, Requests key e m p action
  · obtain ⟨p, action, hrequest⟩ := hany
    obtain ⟨henter, hmode⟩ := hrequest.enter
    by_cases hstorable : m.root.Storable p
    · obtain ⟨hstores, hexit⟩ := hrequest.stores h hstorable elapsed now
      refine ⟨⟨hstores.system, hstores.cwd⟩, hrequests,
        .inr ⟨henter, hmode, p, action, hrequest, hstorable⟩, ?_, hcloses⟩
      rintro ⟨notice, hclose⟩
      cases action with
      | write => simp [o, hclose] at hexit
      | writeQuit => exact .inr ⟨p, hrequest, hstorable⟩
    · have hrefuses := hrequest.refuses h hstorable elapsed now
      have hmachine : o.machine = m := hrefuses.machine
      refine ⟨by simp [hmachine], hrequests, .inl hmachine, ?_, hcloses⟩
      rintro ⟨notice, hclose⟩
      cases hclose.symm.trans hrefuses.exit
  · simp only [not_exists] at hany
    have hleaves : Leaves key e m o := leaves_handleKey h hany
    exact ⟨by simp [hleaves.machine], hrequests, .inl hleaves.machine,
      fun hclose => .inl (hleaves.exit hclose), hcloses⟩

/-- The name that was asked for, some keys ago, by a command to save and close. -/
theorem handleKey_requests_asking :
    asking.Reachable ∧
      let o := asking.handleKey .enter 0 Sample.time Sample.machine
      Stores asking Sample.machine ["home", "user", "n"] o ∧ ∃ notice, o.exit = .close notice := by
  have hasking : asking.Reachable := (Reachable.start _ _).typed_ofScript _
  have hmode : asking.mode = .promptForFilename := by decide +kernel
  have hpending : asking.pendingSave = some .writeQuit := by decide +kernel
  have hname : asking.typedName = "n" := by decide +kernel
  have hpath : Sample.machine.resolve asking.typedName = ["home", "user", "n"] := by
    rw [hname]
    decide +kernel
  have hstorable : Sample.machine.root.Storable ["home", "user", "n"] :=
    ⟨["home", "user"], "n", rfl, by decide +kernel, by decide +kernel⟩
  obtain ⟨verb, hprompted⟩ := hasking.exists_prompted hmode
  have hverb : SaveAction.ofVerb? verb = some .writeQuit := by
    rw [← hprompted.pendingSave, hpending]
  have hrequest : Requests .enter asking Sample.machine ["home", "user", "n"] .writeQuit :=
    ⟨rfl, verb, hpath ▸ .prompted hprompted (by simp [hname]), hverb⟩
  obtain ⟨-, hrequests, -, hcloses⟩ := handleKey_requests hasking 0 Sample.time Sample.machine
  exact ⟨hasking, (hrequests _ _ hrequest).1 hstorable, hcloses.mpr (.inr ⟨_, hrequest, hstorable⟩)⟩

end PocketUnix.Editor
