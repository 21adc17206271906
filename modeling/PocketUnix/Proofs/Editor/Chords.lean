import PocketUnix.Proofs.Sample

/-!
# Chords and the time that passes

A chord lapses in two ways: at a tick behind its deadline, or at the next key. Both look at the same
deadline, so that no tick is ever noticed: two editors that are the same once they are ticked answer
all later keys alike. What becomes of a chord is settled by the next key and its time alone.
-/

namespace PocketUnix

/-- A chord, unless it has lapsed by then. -/
def Chord.standing? (elapsed : Nat) : Option Chord → Option Chord
  | none => none
  | some chord => if chord.deadline ≤ elapsed then none else some chord

namespace Editor

/-- The editor with another chord that waits, or with none. -/
def withChord (chord : Option Chord) (e : Editor) : Editor := { e with chord }

@[simp] theorem withChord_withChord (c d : Option Chord) (e : Editor) :
    (e.withChord d).withChord c = e.withChord c := rfl

@[simp] theorem chord_withChord (c : Option Chord) (e : Editor) : (e.withChord c).chord = c := rfl

@[simp] theorem mode_withChord (c : Option Chord) (e : Editor) :
    (e.withChord c).mode = e.mode := rfl

@[simp] theorem chordTimeout_withChord (c : Option Chord) (e : Editor) :
    (e.withChord c).chordTimeout = e.chordTimeout := rfl

theorem withChord_of_eq {c : Option Chord} {e : Editor} (h : e.chord = c) : e.withChord c = e := by
  rw [← h]
  rfl

end Editor

/-- What is left behind by a key, but with this chord or none. -/
def KeyOutcome.withChord (chord : Option Chord) (o : KeyOutcome) : KeyOutcome :=
  { o with editor := o.editor.withChord chord }

namespace Editor

variable {e e' : Editor} {key : Key} {now : DateTime} {m : Machine} {s t : Nat}

/-- A tick decides about the chord and about nothing else. -/
theorem tick_eq (t : Nat) (e : Editor) : e.tick t = e.withChord (Chord.standing? t e.chord) := by
  unfold tick
  cases hchord : e.chord with
  | none => exact (withChord_of_eq hchord).symm
  | some chord =>
    rw [Chord.standing?]
    dsimp only
    split
    · rfl
    · exact (withChord_of_eq hchord).symm

theorem chord_tick (t : Nat) (e : Editor) : (e.tick t).chord = Chord.standing? t e.chord := by
  rw [tick_eq, chord_withChord]

/-- An earlier tick is not noticed behind a later one. -/
theorem tick_tick (h : s ≤ t) (e : Editor) : (e.tick s).tick t = e.tick t := by
  have hstanding : Chord.standing? t (Chord.standing? s e.chord) = Chord.standing? t e.chord := by
    cases e.chord with
    | none => rfl
    | some chord =>
      by_cases hs : chord.deadline ≤ s
      · simp [Chord.standing?, hs, Nat.le_trans hs h]
      · simp [Chord.standing?, hs]
  rw [tick_eq t, chord_tick, hstanding, tick_eq s, withChord_withChord, ← tick_eq]

theorem tick_eq_of_le (hst : s ≤ t) (h : e.tick s = e'.tick s) : e.tick t = e'.tick t := by
  rw [← tick_tick hst, h, tick_tick hst]

/-- In normal mode a key finds out for itself that the chord has lapsed. -/
theorem normalKey_tick (t : Nat) (key : Key) (e : Editor) :
    (e.tick t).normalKey t key = e.normalKey t key := by
  unfold tick
  cases hchord : e.chord with
  | none => rfl
  | some chord =>
    dsimp only
    split
    · next h => simp [normalKey, hchord, Nat.not_lt.mpr h]
    · rfl

section Elsewhere

variable (c : Option Chord) (e : Editor)

/-- What moves the cursor asks for lines and columns only. -/
theorem withChord_moveTo (line : Nat) :
    (e.withChord c).moveTo line = (e.moveTo line).withChord c := by
  unfold moveTo
  rw [apply_ite (withChord c)]
  rfl

theorem withChord_moveUp : (e.withChord c).moveUp = e.moveUp.withChord c := by
  unfold moveUp
  rw [apply_ite (withChord c), ← withChord_moveTo]
  rfl

theorem withChord_deleteForward :
    (e.withChord c).deleteForward = e.deleteForward.withChord c := by
  unfold deleteForward
  rw [apply_ite (withChord c), apply_ite (withChord c)]
  rfl

theorem withChord_deleteBackward :
    (e.withChord c).deleteBackward = e.deleteBackward.withChord c := by
  unfold deleteBackward
  rw [apply_ite (withChord c), apply_ite (withChord c)]
  rfl

/-- In insert mode, as each key works on the buffer or leaves the mode. -/
theorem withChord_insertKey (key : Key) :
    (e.withChord c).insertKey key = (e.insertKey key).withChord c := by
  cases key with
  | backspace => exact withChord_deleteBackward c e
  | delete => exact withChord_deleteForward c e
  | up => exact withChord_moveUp c e
  | down => exact withChord_moveTo c e _
  | _ => rfl

variable (now : DateTime) (m : Machine)

/-- While a file is saved, whatever comes of it. -/
theorem withChord_save (p : Path) (action : SaveAction) :
    (e.withChord c).save p action now m = (e.save p action now m).withChord c := by
  have htext : (e.withChord c).text = e.text := rfl
  unfold save
  rw [htext]
  cases m.root.write p m.user m.group now e.text with
  | error fault => rfl
  | ok root => cases action <;> rfl

/-- While a command line saves, or leads to the prompt. -/
theorem withChord_writeCommand (name : Option String) (action : SaveAction) :
    (e.withChord c).writeCommand name action now m =
      (e.writeCommand name action now m).withChord c := by
  have htarget : (e.withChord c).target = e.target := rfl
  unfold writeCommand
  rw [htarget]
  split
  · exact withChord_save c e now m _ action
  · exact withChord_save c e now m _ action
  · rfl

theorem withChord_runCommand (command : String) :
    (e.withChord c).runCommand command now m = (e.runCommand command now m).withChord c := by
  unfold runCommand
  generalize splitCommand command = parsed
  obtain ⟨verb, argument⟩ := parsed
  simp only [withChord_writeCommand, apply_ite (KeyOutcome.withChord c)]
  rfl

theorem withChord_commandKey (key : Key) :
    (e.withChord c).commandKey key now m = (e.commandKey key now m).withChord c := by
  cases key with
  | enter => exact withChord_runCommand c { e with command := [], mode := .normal } now m _
  | _ => rfl

/-- While the name of a file is typed. -/
theorem withChord_promptKey (key : Key) :
    (e.withChord c).promptKey key now m = (e.promptKey key now m).withChord c := by
  cases key with
  | enter =>
    unfold promptKey
    dsimp only
    rw [apply_ite (KeyOutcome.withChord c), ← withChord_save]
    rfl
  | _ => rfl

/-- Outside normal mode no key looks at the chord or changes it. -/
theorem withChord_handleKey (hmode : e.mode ≠ .normal) (key : Key) (t : Nat) :
    (e.withChord c).handleKey key t now m = (e.handleKey key t now m).withChord c := by
  unfold handleKey
  rw [mode_withChord]
  split
  · next h => exact absurd h hmode
  · exact congrArg (stay · m) (withChord_insertKey c e key)
  · exact withChord_commandKey c e now m key
  · exact withChord_promptKey c e now m key

end Elsewhere

theorem mode_of_tick_eq (h : e.tick t = e'.tick t) : e.mode = e'.mode := by
  have hticked := congrArg Editor.mode h
  rwa [tick_eq, tick_eq] at hticked

theorem handleKey_normal (hmode : e.mode = .normal) (key : Key) (t : Nat) (now : DateTime)
    (m : Machine) : e.handleKey key t now m = stay (e.normalKey t key) m := by
  simp only [handleKey, hmode]

theorem handleKey_of_normal (h : e.tick t = e'.tick t) (hmode : e.mode = .normal) (key : Key)
    (now : DateTime) (m : Machine) : e.handleKey key t now m = e'.handleKey key t now m := by
  rw [handleKey_normal hmode, handleKey_normal (mode_of_tick_eq h ▸ hmode), ← normalKey_tick, h,
    normalKey_tick]

/-- One step: where a tick would make the editors the same, a key has the same outcome in both, but
for a chord that has lapsed, and a tick would make them the same again. Outside normal mode both are
the ticked editor but for their chords, and the key leaves these as they are. -/
theorem handleKey_of_tick_eq (h : e.tick t = e'.tick t) (key : Key) (now : DateTime)
    (m : Machine) :
    (e.handleKey key t now m).withChord none = (e'.handleKey key t now m).withChord none ∧
      (e.handleKey key t now m).editor.tick t = (e'.handleKey key t now m).editor.tick t := by
  have hmode := mode_of_tick_eq h
  by_cases hnormal : e.mode = .normal
  · rw [handleKey_of_normal h hnormal]
    exact ⟨rfl, rfl⟩
  · have hstanding : Chord.standing? t e.chord = Chord.standing? t e'.chord := by
      rw [← chord_tick, h, chord_tick]
    have hrest : e.withChord none = e'.withChord none := by
      have hticked := congrArg (withChord none) h
      rwa [tick_eq, tick_eq] at hticked
    have houtcome (e : Editor) (hother : e.mode ≠ .normal) : e.handleKey key t now m =
        ((e.withChord none).handleKey key t now m).withChord e.chord :=
      withChord_handleKey e.chord (e.withChord none) now m hother key t
    rw [houtcome e hnormal, houtcome e' (hmode ▸ hnormal), hrest]
    refine ⟨rfl, ?_⟩
    simp only [KeyOutcome.withChord, tick_eq, chord_withChord, withChord_withChord, hstanding]

/-- What happens to an editor: a tick at an elapsed time, or a key, with the time of day for the
files that it saves. -/
inductive Moment where
  | tick (elapsed : Nat)
  | key (key : Key) (elapsed : Nat) (now : DateTime)
  deriving DecidableEq

namespace Moment

def elapsed : Moment → Nat
  | .tick elapsed => elapsed
  | .key _ elapsed _ => elapsed

def isKey : Moment → Bool
  | .tick _ => false
  | .key _ _ _ => true

/-- The moments come in the order of their times. -/
def InOrder (moments : List Moment) : Prop := moments.Pairwise (·.elapsed ≤ ·.elapsed)

end Moment

/-- What the keys of a run leave behind, one after the other. -/
def outcomes : List Moment → Editor → Machine → List KeyOutcome
  | [], _, _ => []
  | .tick elapsed :: rest, e, m => outcomes rest (e.tick elapsed) m
  | .key key elapsed now :: rest, e, m =>
    let o := e.handleKey key elapsed now m
    o :: outcomes rest o.editor o.machine

/-- A run without its ticks has the same outcomes, also from an editor that is the same but for a
tick. -/
theorem outcomes_of_tick_eq {moments : List Moment} (hordered : Moment.InOrder moments)
    (hlater : ∀ moment ∈ moments, t ≤ moment.elapsed) (h : e.tick t = e'.tick t) (m : Machine) :
    (outcomes moments e m).map (KeyOutcome.withChord none) =
      (outcomes (moments.filter Moment.isKey) e' m).map (KeyOutcome.withChord none) := by
  induction moments generalizing e e' t m with
  | nil => rfl
  | cons moment rest ih =>
    obtain ⟨hbehind, hrest⟩ := List.pairwise_cons.mp hordered
    obtain ⟨hnow, -⟩ := List.forall_mem_cons.mp hlater
    cases moment with
    | tick elapsed =>
      exact ih hrest hbehind ((tick_tick (Nat.le_refl _) e).trans (tick_eq_of_le hnow h)) m
    | key key elapsed now =>
      obtain ⟨hsame, heditor⟩ :
          (e.handleKey key elapsed now m).withChord none =
              (e'.handleKey key elapsed now m).withChord none ∧
            (e.handleKey key elapsed now m).editor.tick elapsed =
              (e'.handleKey key elapsed now m).editor.tick elapsed :=
        handleKey_of_tick_eq (tick_eq_of_le hnow h) key now m
      have hmachine : (e.handleKey key elapsed now m).machine =
          (e'.handleKey key elapsed now m).machine := by injection hsame
      have hlast := ih hrest hbehind heditor (e.handleKey key elapsed now m).machine
      rw [List.filter_cons_of_pos rfl]
      simp only [outcomes, List.map_cons]
      rw [hlast, hmachine]
      exact congrArg (· :: _) hsame

/-- What a key makes of a chord that a letter has begun in this editor. -/
structure ChordEnds (first : Char) (began : Nat) (key : Key) (elapsed : Nat) (now : DateTime)
    (e : Editor) (m : Machine) (o : KeyOutcome) : Prop where
  jumps : elapsed < began + e.chordTimeout → first = 'g' → key = .char 'g' →
    o = stay { e with line := 0, column := 0 } m
  deletes : elapsed < began + e.chordTimeout → first = 'd' → key = .char 'd' →
    ∃ line, o = stay { e with
      lines := if e.lines.length = 1 then [[]] else e.lines.eraseIdx e.line
      line := line
      column := 0
      status := "1 line deleted" } m
  /-- Another key in this time is lost. -/
  drops : elapsed < began + e.chordTimeout → key ≠ .char first → o = stay e m
  /-- From its deadline on it is as if there had been no chord. -/
  lapses : began + e.chordTimeout ≤ elapsed → o = e.handleKey key elapsed now m

theorem tick_foldl {ticks : List Nat} (h : ∀ s ∈ ticks, s ≤ t) (e : Editor) :
    (ticks.foldl (fun e s => e.tick s) e).tick t = e.tick t := by
  induction ticks generalizing e with
  | nil => rfl
  | cons s rest ih =>
    obtain ⟨hs, hrest⟩ := List.forall_mem_cons.mp h
    rw [List.foldl_cons, ih hrest, tick_tick hs]

/-- A letter that begins a chord does nothing else. -/
theorem handleKey_begins {first : Char} (hmode : e.mode = .normal)
    (hquiet : (e.tick t).chord = none) (hfirst : first = 'g' ∨ first = 'd') :
    e.handleKey (.char first) t now m =
      stay (e.withChord (some ⟨first, t + e.chordTimeout⟩)) m := by
  have hticked : e.tick t = e.withChord none := by rw [tick_eq, ← chord_tick, hquiet]
  rw [handleKey_normal hmode, ← normalKey_tick, hticked]
  rcases hfirst with rfl | rfl <;> rfl

/-- The lines that are left when one is deleted, whichever place the cursor goes to. -/
theorem lines_deleteLine (e : Editor) : ∃ line, e.deleteLine = { e with
    lines := if e.lines.length = 1 then [[]] else e.lines.eraseIdx e.line
    line := line
    column := 0 } := by
  unfold deleteLine
  split
  · exact ⟨e.line, rfl⟩
  · exact ⟨_, rfl⟩

/-- One key behind the letter: what it does is settled by whether it comes before the deadline and
by whether it is the same letter. -/
theorem chordEnds_handleKey {first : Char} (hmode : e.mode = .normal) (hchord : e.chord = none)
    (began : Nat) (key : Key) (elapsed : Nat) (now : DateTime) (m : Machine) :
    ChordEnds first began key elapsed now e m
      ((e.withChord (some ⟨first, began + e.chordTimeout⟩)).handleKey key elapsed now m) := by
  have hkey : (e.withChord (some ⟨first, began + e.chordTimeout⟩)).handleKey key elapsed now m =
      stay (if elapsed < began + e.chordTimeout then
        if key = .char first then (e.withChord none).fireChord first else e.withChord none
        else (e.withChord none).plainKey elapsed key) m :=
    handleKey_normal (e := e.withChord (some ⟨first, began + e.chordTimeout⟩)) hmode _ _ _ m
  rw [hkey, withChord_of_eq hchord]
  refine ⟨fun htime hg hsecond => ?_, fun htime hd hsecond => ?_, fun htime hother => ?_,
    fun hlate => ?_⟩
  · subst hg
    rw [if_pos htime, if_pos hsecond]
    rfl
  · subst hd
    obtain ⟨line, hline⟩ := lines_deleteLine e
    rw [if_pos htime, if_pos hsecond, fireChord, if_neg (by decide), hline]
    exact ⟨line, rfl⟩
  · rw [if_pos htime, if_neg hother]
  · rw [if_neg (Nat.not_lt.mpr hlate), handleKey_normal hmode, normalKey, hchord]

/-- Ticks between the keys of a run change nothing that the keys leave behind, but for the time at
which a chord is dropped that has lapsed. A letter that begins a chord waits for the next key: the
same letter within its time makes it jump or delete the line, another key is lost, and after its
time there is no chord any more, whatever ticks there were. -/
theorem outcomes_chordEnds (e : Editor) (m : Machine) :
    (∀ moments, Moment.InOrder moments →
      (outcomes moments e m).map (KeyOutcome.withChord none) =
        (outcomes (moments.filter Moment.isKey) e m).map (KeyOutcome.withChord none)) ∧
      ∀ (first : Char) (began : Nat) (now : DateTime), e.mode = .normal →
        (e.tick began).chord = none → first = 'g' ∨ first = 'd' →
          let o := e.handleKey (.char first) began now m
          o.withChord none = stay (e.withChord none) m ∧
            ∀ (ticks : List Nat) (key : Key) (elapsed : Nat) (now : DateTime) (m : Machine),
              (∀ t ∈ ticks, t ≤ elapsed) →
                ChordEnds first began key elapsed now (e.withChord none) m
                  ((ticks.foldl (fun e t => e.tick t) o.editor).handleKey key elapsed now m) := by
  refine ⟨fun moments hordered =>
    outcomes_of_tick_eq hordered (fun _ _ => Nat.zero_le _) rfl m, ?_⟩
  intro first began now hmode hquiet hfirst
  dsimp only
  rw [handleKey_begins hmode hquiet hfirst]
  refine ⟨rfl, fun ticks key elapsed now m hticks => ?_⟩
  have hticked := tick_foldl hticks (e.withChord (some ⟨first, began + e.chordTimeout⟩))
  rw [stay, ← handleKey_of_normal hticked.symm hmode]
  exact chordEnds_handleKey (e := e.withChord none) hmode rfl began key elapsed now m

/-- Of three `d` the second comes with the deadline of the first and is a first one itself. Ticks
before and behind it make no difference. -/
theorem outcomes_chordEnds_three :
    let e := start ⟨none, "ab\ncd"⟩ 500
    let moments : List Moment := [.key (.char 'd') 0 Sample.time, .tick 499,
      .key (.char 'd') 500 Sample.time, .tick 900, .key (.char 'd') 999 Sample.time]
    (outcomes moments e Sample.machine).map (KeyOutcome.withChord none) =
        (outcomes (moments.filter Moment.isKey) e Sample.machine).map (KeyOutcome.withChord none) ∧
      (outcomes moments e Sample.machine).map (fun o => o.editor.text) =
        ["ab\ncd", "ab\ncd", "cd"] ∧
      ChordEnds 'd' 0 (.char 'd') 500 Sample.time (e.withChord none) Sample.machine
        (((e.handleKey (.char 'd') 0 Sample.time Sample.machine).editor.tick 499).handleKey
          (.char 'd') 500 Sample.time Sample.machine) := by
  intro e moments
  obtain ⟨hticks, hchord⟩ := outcomes_chordEnds e Sample.machine
  have hordered : Moment.InOrder moments := by
    unfold Moment.InOrder
    decide
  obtain ⟨-, hends⟩ := hchord 'd' 0 Sample.time rfl rfl (.inr rfl)
  exact ⟨hticks moments hordered, by decide +kernel,
    hends [499] (.char 'd') 500 Sample.time Sample.machine (by decide)⟩

end Editor

end PocketUnix
