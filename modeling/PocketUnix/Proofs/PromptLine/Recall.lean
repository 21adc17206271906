import Mathlib.Data.List.Chain
import Mathlib.Data.List.GetD
import Mathlib.Logic.Function.Iterate
import PocketUnix.Proofs.PromptLine.Access
import PocketUnix.Proofs.Text.Ends

/-!
# Lines that are recalled

The lines submitted before are gone through from the newest one to the oldest and back again, where
the line that was being typed waits behind the newest one. Only lines that say something are kept,
without the blanks around them, and none of them twice in a row.
-/

namespace PocketUnix

namespace PromptLine

variable {p : PromptLine} {i j k : Nat} {text draft : String}

theorem showLine_eq (text : String) (p : PromptLine) :
    p.showLine text = { p with text, cursor := Text.byteLength text } := by
  have hend := Chars.cut_byteLength_append text.toList []
  rw [List.append_nil] at hend
  rw [showLine, set, Text.byteLength, hend]

theorem previous_recallEntry (p : PromptLine) (i : Nat) (draft : String) :
    (p.recallEntry i draft).previous = p.recallEntry (i - 1) draft := rfl

theorem next_recallEntry (h : i + 1 < p.history.length) (draft : String) :
    (p.recallEntry i draft).next = p.recallEntry (i + 1) draft := if_pos h

/-- Behind the newest entry the draft comes back. -/
theorem next_newest (h : p.history.length ≤ i + 1) (draft : String) :
    (p.recallEntry i draft).next = showLine draft { p with recalled := none } :=
  if_neg (Nat.not_lt.mpr h)

theorem next_of_not_recalled (h : p.recalled = none) : p.next = p := by
  rw [next, h]

/-- Back to the oldest entry, and not beyond it. -/
theorem previous_iterate (hrecalled : p.recalled = none) (hhistory : p.history ≠ []) (k : Nat) :
    previous^[k + 1] p = p.recallEntry (p.history.length - (k + 1)) p.text := by
  induction k with
  | zero =>
    have hnonempty : p.history.isEmpty = false := by simpa using hhistory
    rw [Function.iterate_one, previous, hrecalled]
    simp only [hnonempty, Bool.false_eq_true, if_false]
  | succ k ih => rw [Function.iterate_succ_apply', ih, previous_recallEntry, Nat.sub_sub]

/-- Forth to the newest entry. -/
theorem next_iterate (h : i + j < p.history.length) (draft : String) :
    next^[j] (p.recallEntry i draft) = p.recallEntry (i + j) draft := by
  induction j with
  | zero => rfl
  | succ j ih =>
    have hnext : i + j + 1 < p.history.length := h
    rw [Function.iterate_succ_apply', ih (by omega), next_recallEntry hnext]
    rfl

/-- Recall is left behind the newest entry, once and for all. -/
theorem next_iterate_beyond (hi : i < p.history.length) (hj : p.history.length ≤ i + j)
    (draft : String) :
    next^[j] (p.recallEntry i draft) = showLine draft { p with recalled := none } := by
  induction j with
  | zero => omega
  | succ j ih =>
    rw [Function.iterate_succ_apply']
    by_cases hlast : i + j < p.history.length
    · rw [next_iterate hlast, next_newest (by omega)]
    · rw [ih (by omega)]
      exact next_of_not_recalled rfl

/-- What is kept of the lines, and which of them is shown. -/
structure Remembers (p : PromptLine) : Prop where
  shown : ∀ r, p.recalled = some r → r.index < p.history.length
  trimmed : ∀ line ∈ p.history, Chars.IsTrimmed line.toList
  changing : p.history.IsChain (· ≠ ·)

theorem history_previous (p : PromptLine) : p.previous.history = p.history := by
  unfold previous
  split
  · rfl
  · split <;> rfl

theorem history_next (p : PromptLine) : p.next.history = p.history := by
  unfold next
  split
  · rfl
  · split <;> rfl

/-- What is added is not blank and not what was added last. -/
theorem history_submit (p : PromptLine) :
    p.submit.history = p.history ∨ ∃ line, p.submit.history = p.history ++ [line] ∧
      Chars.IsTrimmed line.toList ∧ p.history.getLast? ≠ some line := by
  unfold submit
  dsimp only
  split
  · exact .inl rfl
  · next hkept =>
    obtain ⟨hblank, hrepeated⟩ := not_or.mp hkept
    refine .inr ⟨_, rfl, ?_, hrepeated⟩
    rw [Text.trim, String.toList_ofList]
    exact Chars.isTrimmed_trim fun hempty => hblank (by rw [Text.trim, hempty])

/-- Only a line that is submitted is added to the history. -/
theorem history_apply (operation : Operation) (p : PromptLine) :
    (operation.apply p).history = p.history ∨
      ∃ line, (operation.apply p).history = p.history ++ [line] ∧
        Chars.IsTrimmed line.toList ∧ p.history.getLast? ≠ some line := by
  cases operation with
  | edit change => exact .inl (recalled_edit change p).2
  | set text offset => exact .inl rfl
  | previous => exact .inl (history_previous p)
  | next => exact .inl (history_next p)
  | submit => exact history_submit p
  | reset => exact .inl rfl

theorem remembers_empty : Remembers {} := ⟨nofun, nofun, .nil⟩

/-- No operation forgets what is kept: edits leave it alone, and a line that is submitted is added
to it. -/
theorem Remembers.apply (h : p.Remembers) (hplaced : p.Placed) (operation : Operation) :
    (operation.apply p).Remembers := by
  have hshown := (hplaced.apply operation).recalled
  rcases history_apply operation p with hsame | ⟨line, hadded, hline, hnew⟩
  · exact ⟨hshown, hsame ▸ h.trimmed, hsame ▸ h.changing⟩
  · refine ⟨hshown, ?_, ?_⟩
    · rw [hadded, List.forall_mem_append, List.forall_mem_singleton]
      exact ⟨h.trimmed, hline⟩
    · rw [hadded, List.isChain_append]
      refine ⟨h.changing, .singleton line, ?_⟩
      rintro last hlast _ ⟨⟩ rfl
      exact hnew hlast

theorem Remembers.after (h : p.Remembers) (hplaced : p.Placed) (operations : List Operation) :
    (p.after operations).Remembers := by
  induction operations generalizing p with
  | nil => exact h
  | cons operation rest ih => exact ih (h.apply hplaced operation) (hplaced.apply operation)

/-- However the line has come about, steps back show the entries of the history from the newest one
to the oldest, and steps forth from there lead to the newest one again and then to what was typed.
What is kept in the history are lines without blanks around them, of which no two neighbours are the
same. -/
theorem after_recall (operations : List Operation) :
    let p := PromptLine.after {} operations
    let n := p.history.length
    p.Remembers ∧ (p.recalled = none → 0 < n → ∀ k, 0 < k →
      let shown := previous^[k] p
      p.history[n - k]? = some shown.text ∧ shown.cursor = Text.byteLength shown.text ∧
        (∀ j < min k n, p.history[n - k + j]? = some (next^[j] shown).text) ∧
        ∀ j ≥ min k n, next^[j] shown =
          { p with recalled := none, cursor := Text.byteLength p.text }) := by
  intro p n
  refine ⟨remembers_empty.after placed_empty operations, fun hrecalled hn k hk => ?_⟩
  obtain ⟨k, rfl⟩ := Nat.exists_eq_succ_of_ne_zero (Nat.ne_of_gt hk)
  rw [previous_iterate hrecalled (List.length_pos_iff.mp hn)]
  have hentry (i : Nat) (hi : i < n) :
      p.history[i]? = some (p.recallEntry i p.text).text := by
    rw [recallEntry, showLine_eq, List.getElem?_eq_getElem hi, List.getD_eq_getElem _ _ hi]
  refine ⟨hentry _ (by omega), ?_, fun j hj => ?_, fun j hj => ?_⟩
  · rw [recallEntry, showLine_eq]
  · rw [next_iterate (by omega)]
    exact hentry _ (by omega)
  · rw [next_iterate_beyond (by omega) (by omega), showLine_eq]

/-- Two lines are submitted, the second one twice. Behind them another one is typed and the cursor
moved into it. -/
theorem after_recall_two :
    let typed (text : String) : List Operation := text.toList.map fun c => .edit (.insertChar c)
    let operations := typed " ls " ++ .submit :: typed "pwd" ++ .submit :: typed "pwd" ++
      .submit :: typed "cd é" ++ [.edit .left]
    let p := PromptLine.after {} operations
    p = { text := "cd é", cursor := 3, history := ["ls", "pwd"] } ∧
      (previous^[5] p).text = "ls" ∧ next^[2] (previous^[5] p) = { p with cursor := 5 } := by
  intro typed operations p
  have hp : p = { text := "cd é", cursor := 3, history := ["ls", "pwd"] } := by decide +kernel
  obtain ⟨-, hrecall⟩ := after_recall operations
  have hrecalled : p.recalled = none := by rw [hp]
  have hlength : p.history.length = 2 := by
    rw [hp]
    rfl
  have hmany : 0 < p.history.length := by omega
  obtain ⟨hshown, -, -, hback⟩ := hrecall hrecalled hmany 5 (by decide)
  refine ⟨hp, ?_, ?_⟩
  · have holdest : p.history.length - 5 = 0 := by omega
    have hfirst : p.history[0]? = some "ls" := by
      rw [hp]
      rfl
    rw [holdest, hfirst] at hshown
    exact (Option.some.inj hshown).symm
  · have hfew : min 5 p.history.length ≤ 2 := by omega
    have hbytes : Text.byteLength p.text = 5 := by
      rw [hp]
      decide +kernel
    have hend : next^[2] (previous^[5] p) =
        { p with recalled := none, cursor := Text.byteLength p.text } := hback 2 hfew
    rw [hend, hbytes, hp]

end PromptLine

end PocketUnix
