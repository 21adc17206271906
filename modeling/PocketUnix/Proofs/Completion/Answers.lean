import PocketUnix.Proofs.Completion.Access
import PocketUnix.Proofs.Session.SoundSessions

/-!
# The answers to a tab

No choice leaves the line as it is, one choice is written out, and several are written as far as
they agree, or listed where that is no further than what has been typed.
-/

namespace PocketUnix.Completion

variable {m : Machine} {before after lead word typed : List Char} {source : Source}
  {choices : List Choice}

/-- The line with an insertion at the cursor, and the cursor behind it. -/
def inserted (before insertion after : List Char) : Completion :=
  .edited (.ofList (before ++ insertion ++ after)) (Chars.byteLength (before ++ insertion))

/-- What is written behind the only choice: a space, unless it ends in a slash. -/
def Choice.gap (c : Choice) : List Char := if c.letters.getLast? = some '/' then [] else [' ']

/-- The answers for what has been typed between two texts, by the choices that there are. -/
inductive Answers (before after typed : List Char) : List Choice → Completion → Prop
  | none : Answers before after typed [] .unchanged
  | one {c : Choice} {rest : List Char} (h : c.letters = typed ++ rest) :
    Answers before after typed [c] (inserted before (rest ++ c.gap) after)
  | longer {choices : List Choice} {more : List Char} (hn : 1 < choices.length)
    (h : LongestStart (choices.map Choice.letters) (typed ++ more)) (hmore : more ≠ []) :
    Answers before after typed choices (inserted before more after)
  | several {choices : List Choice} (hn : 1 < choices.length)
    (h : LongestStart (choices.map Choice.letters) typed) :
    Answers before after typed choices (.listing (choices.map fun c => .ofList c.letters))

theorem splice_eq {insertion : List Char} (h : insertion ≠ []) (before after : List Char) :
    splice before insertion after = inserted before insertion after := by
  simp [splice, inserted, h]

/-- Neither the names of commands nor what has been typed of the name of a file has a slash. -/
theorem slash_not_mem_typed (h : Looks m lead word source typed) {c : Choice}
    (hc : c ∈ found m source typed) : '/' ∉ typed := by
  cases h with
  | commands hplace =>
    have hnames : ∀ name ∈ Command.names, '/' ∉ name.toList := by decide +kernel
    obtain ⟨name, hname, -⟩ := List.mem_map.mp hc
    obtain ⟨hmem, htyped⟩ := List.mem_filter.mp hname
    exact fun hslash => hnames name hmem ((List.isPrefixOf_iff_prefix.mp htyped).subset hslash)
  | directory hplace hw => exact hw.slash_not_mem

/-- The rest of a choice ends in a slash just if the choice does. -/
theorem getLast?_rest {rest : List Char} (hslash : '/' ∉ typed) :
    rest.getLast? = some '/' ↔ (typed ++ rest).getLast? = some '/' := by
  rw [List.getLast?_append]
  cases hrest : rest.getLast? with
  | some c => rfl
  | none =>
    have hlast : typed.getLast? ≠ some '/' := fun h => hslash (List.mem_of_getLast? h)
    simp [hlast]

/-- The only choice always adds something to the line. -/
theorem Choice.rest_ne_nil {c : Choice} {rest : List Char} (h : c.letters = typed ++ rest)
    (hslash : '/' ∉ typed) : rest ++ c.gap ≠ [] := by
  unfold Choice.gap
  split
  · next hlast =>
    rw [h, ← getLast?_rest hslash] at hlast
    rintro hnil
    rw [List.append_nil] at hnil
    rw [hnil] at hlast
    cases hlast
  · simp

/-- The only choice is written out, and what is written ends as the choice does. -/
theorem answers_one {c : Choice} (hstart : typed <+: c.letters) (hslash : '/' ∉ typed)
    (before after : List Char) :
    Answers before after typed [c] (ofOffer before after ⟨typed, [c.letters]⟩) := by
  obtain ⟨rest, hrest⟩ := hstart
  have hinsert : (if rest.getLast? = some '/' then rest else rest ++ [' ']) = rest ++ c.gap := by
    rw [Choice.gap, ← hrest]
    simp only [← getLast?_rest hslash]
    split <;> simp
  have hanswer : ofOffer before after ⟨typed, [c.letters]⟩ =
      inserted before (rest ++ c.gap) after := by
    simp only [ofOffer, ← hrest, List.drop_left, hinsert]
    exact splice_eq (Choice.rest_ne_nil hrest.symm hslash) before after
  rw [hanswer]
  exact .one hrest.symm

/-- Several choices are written as far as they agree, or listed. -/
theorem answers_several {a b : Choice} {others : List Choice}
    (hstart : ∀ c ∈ a :: b :: others, typed <+: c.letters) (before after : List Char) :
    Answers before after typed (a :: b :: others)
      (ofOffer before after ⟨typed, (a :: b :: others).map Choice.letters⟩) := by
  have hn : 1 < (a :: b :: others).length := by simp
  have hlongest : LongestStart ((a :: b :: others).map Choice.letters)
      (longestCommonStart ((a :: b :: others).map Choice.letters)) :=
    longestStart_longestCommonStart (by simp)
  obtain ⟨more, hmore⟩ := hlongest.longest typed (List.forall_mem_map.mpr hstart)
  rw [← hmore] at hlongest
  simp only [List.map_cons] at hmore
  by_cases hnil : more = []
  · subst hnil
    rw [List.append_nil] at hmore hlongest
    have hanswer : ofOffer before after ⟨typed, (a :: b :: others).map Choice.letters⟩ =
        .listing ((a :: b :: others).map fun c => .ofList c.letters) := by
      simp [ofOffer, ← hmore]
    rw [hanswer]
    exact .several hn hlongest
  · have hlonger : typed.length < (typed ++ more).length := by
      rw [List.length_append]
      exact Nat.lt_add_of_pos_right (List.length_pos_iff.mpr hnil)
    have hanswer : ofOffer before after ⟨typed, (a :: b :: others).map Choice.letters⟩ =
        inserted before more after := by
      simp only [ofOffer, List.map_cons, ← hmore, if_pos hlonger, List.drop_left]
      exact splice_eq hnil before after
    rw [hanswer]
    exact .longer hn hlongest hnil

/-- The offer of choices that begin with what has been typed is answered as it should be. -/
theorem answers_ofOffer (hstart : ∀ c ∈ choices, typed <+: c.letters)
    (hslash : ∀ c ∈ choices, '/' ∉ typed) (before after : List Char) :
    Answers before after typed choices
      (ofOffer before after ⟨typed, choices.map Choice.letters⟩) := by
  match choices, hstart, hslash with
  | [], _, _ => exact .none
  | [c], hstart, hslash =>
    exact answers_one (hstart c List.mem_cons_self) (hslash c List.mem_cons_self) before after
  | a :: b :: others, hstart, _ => exact answers_several hstart before after

/-- Whatever is written is not empty, and stands between what stood around the cursor. -/
theorem Answers.edited {completion : Completion} {text : String} {cursor : Nat}
    (h : Answers before after typed choices completion) (hslash : ∀ c ∈ choices, '/' ∉ typed)
    (he : completion = .edited text cursor) : ∃ insertion, insertion ≠ [] ∧
      text.toList = before ++ insertion ++ after ∧
      cursor = Chars.byteLength (before ++ insertion) := by
  cases h with
  | none => cases he
  | @one c rest h =>
    cases he
    exact ⟨_, Choice.rest_ne_nil h (hslash c List.mem_cons_self), String.toList_ofList, rfl⟩
  | longer hn h hmore =>
    cases he
    exact ⟨_, hmore, String.toList_ofList, rfl⟩
  | several hn h => cases he

theorem complete_eq {text : String} {cursor : Nat}
    (hcut : Chars.cut cursor text.toList = (before, after)) (hword : LastWord before lead word)
    (hlooks : Looks m lead word source typed) :
    complete text cursor m =
      ofOffer before after ⟨typed, (found m source typed).map Choice.letters⟩ := by
  rw [complete, hcut]
  dsimp only
  rw [hword.lastWord_eq]
  dsimp only
  rw [offer_eq hlooks]

/-- Wherever the cursor stands, no text is cut out of range. The answer is the one for the choices
that there are: at the place of a command all commands, elsewhere all names in the directory of the
word, that begin with what has been typed. An edit keeps what stands before and after the cursor,
and puts the cursor right behind what it has inserted. All that is asked of the tree is that its
directories are tables, with every entry under its own name. -/
theorem complete_answers (h : m.root.InOrder) (text : String) (cursor : Nat) :
    Checked.complete text cursor m = some (complete text cursor m) ∧
      ∃ before after lead word source typed choices,
        Chars.CutAt cursor text.toList before after ∧ LastWord before lead word ∧
        Looks m lead word source typed ∧ Offered m source typed choices ∧
        Answers before after typed choices (complete text cursor m) ∧
        ∀ text' cursor', complete text cursor m = .edited text' cursor' →
          ∃ insertion, insertion ≠ [] ∧ text'.toList = before ++ insertion ++ after ∧
            cursor' = Chars.byteLength (before ++ insertion) := by
  refine ⟨Checked.complete_eq text cursor m, ?_⟩
  let before := (Chars.cut cursor text.toList).1
  let after := (Chars.cut cursor text.toList).2
  have hword := lastWord_lastWord before
  obtain ⟨source, typed, hlooks⟩ := exists_looks m (lastWord before).1 (lastWord before).2
  have hslash : ∀ c ∈ found m source typed, '/' ∉ typed := fun c => slash_not_mem_typed hlooks
  have hcomplete : complete text cursor m =
      ofOffer before after ⟨typed, (found m source typed).map Choice.letters⟩ :=
    complete_eq rfl hword hlooks
  have hanswers : Answers before after typed (found m source typed) (complete text cursor m) := by
    rw [hcomplete]
    exact answers_ofOffer (fun c => prefix_letters_of_found) hslash before after
  refine ⟨before, after, _, _, source, typed, found m source typed, Chars.cutAt_cut _ _, hword,
    hlooks, offered_found h source typed, hanswers, fun text' cursor' he => ?_⟩
  exact hanswers.edited hslash he

/-- The cursor stands inside the character behind the word, which is left where it is. -/
theorem complete_answers_inside : Sample.machine.root.InOrder ∧
    complete "ls do€" 6 Sample.machine =
      inserted ['l', 's', ' ', 'd', 'o'] ['c', 's', '/'] ['€'] ∧
    Checked.complete "ls do€" 6 Sample.machine = some (complete "ls do€" 6 Sample.machine) :=
  have hsound : Node.Sound Path.IsName Sample.machine.root := Seed.sound_root _ "terminus"
  ⟨hsound.wellFormed.inOrder, by decide +kernel,
    (complete_answers hsound.wellFormed.inOrder "ls do€" 6).1⟩

end PocketUnix.Completion
