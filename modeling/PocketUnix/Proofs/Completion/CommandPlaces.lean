import PocketUnix.Proofs.Completion.Words
import PocketUnix.Proofs.Sample
import PocketUnix.Proofs.Shell.Quotes

/-!
# Places of commands

A tab looks back from the cursor, over one word and the blanks in front of it, for a bar. A line is
run after a look through all of it that knows which quote is open. The word at the cursor can be at
the place of a command for the one and not for the other.
-/

namespace PocketUnix.Completion

open PocketUnix.Shell (isQuote openQuote splitUnquoted)

variable {before after lead word : List Char}

/-- Nothing but blanks stands in front of the word in the last stage of what is given. -/
def StartsStage (before word : List Char) : Prop :=
  ∃ gap, (∀ c ∈ gap, Chars.isBlank c = true) ∧
    (splitUnquoted '|' none before).getLast? = some (gap ++ word)

theorem blank_unmarked {gap : List Char} (h : ∀ c ∈ gap, Chars.isBlank c = true) :
    ∀ c ∈ gap, isQuote c = false ∧ c ≠ '|' := by
  intro c hc
  refine ⟨Shell.isQuote_of_isBlank (h c hc), ?_⟩
  rintro rfl
  exact absurd (h '|' hc) (by decide)

/-- In a line without semicolons, the word at the cursor starts a stage just if a tab takes it for
the name of a command, and moreover no quote is open in front of it and it is not cut itself. -/
theorem startsStage_iff {text : String} {cursor : Nat}
    (hcut : Chars.cut cursor text.toList = (before, after)) (hsemicolon : ';' ∉ text.toList)
    (hword : LastWord before lead word) :
    StartsStage before word ↔
      isCommandPlace lead = true ∧ openQuote none lead = none ∧
        splitUnquoted '|' none word = [word] := by
  have hbar : isQuote '|' = false := by decide
  -- Neither a bar nor the blanks behind it close what is open in front of them.
  have hopens : ∀ (front gap : List Char), (∀ c ∈ gap, Chars.isBlank c = true) →
      openQuote none (front ++ '|' :: gap) = openQuote none front := fun front gap hgap =>
    Shell.openQuote_append_of_forall front
      (List.forall_mem_cons.mpr ⟨hbar, fun c hc => (blank_unmarked hgap c hc).1⟩)
  rw [isCommandPlace_iff]
  constructor
  · rintro ⟨gap, hgap, hlast⟩
    rw [Shell.getLast?_splitUnquoted_iff hbar,
      Shell.splitUnquoted_append_eq_single (blank_unmarked hgap), hword.append] at hlast
    obtain ⟨hsingle, hall | ⟨front, hfront, hopen⟩⟩ := hlast
    · have hlead : lead = gap := List.append_cancel_right hall
      have hopen : openQuote none gap = none :=
        Shell.openQuote_append_of_forall [] fun c hc => (blank_unmarked hgap c hc).1
      rw [hlead]
      exact ⟨⟨[], gap, rfl, hgap, nofun⟩, hopen, hsingle⟩
    · have hlead : lead = front ++ '|' :: gap := List.append_cancel_right (by simpa using hfront)
      rw [hlead, hopens front gap hgap]
      exact ⟨⟨front ++ ['|'], gap, by simp, hgap, by simp⟩, hopen, hsingle⟩
  · rintro ⟨⟨front, gap, hlead, hgap, hfront⟩, hopen, hsingle⟩
    refine ⟨gap, hgap, ?_⟩
    rw [Shell.getLast?_splitUnquoted_iff hbar,
      Shell.splitUnquoted_append_eq_single (blank_unmarked hgap), hword.append, hlead]
    refine ⟨hsingle, ?_⟩
    cases hmark : front.getLast? with
    | none =>
      left
      rw [List.getLast?_eq_none_iff.mp hmark]
      rfl
    | some c =>
      right
      obtain ⟨front, rfl⟩ := List.getLast?_eq_some_iff.mp hmark
      have hc : c = '|' := by
        refine (hfront c hmark).resolve_right ?_
        rintro rfl
        refine hsemicolon ?_
        rw [← Chars.cut_append cursor text.toList, hcut, hword.append, hlead]
        simp
      subst hc
      rw [List.append_assoc, List.singleton_append] at hlead
      rw [hlead, hopens front gap hgap] at hopen
      exact ⟨front, by simp, hopen⟩

/-- The same word behind the same bar, with and without an open quote: a tab lists commands for it
where the line has only one stage. -/
theorem startsStage_iff_quoted :
    ¬StartsStage "echo \"a | wh".toList ['w', 'h'] ∧ StartsStage "echo a | wh".toList ['w', 'h'] ∧
      isCommandPlace "echo \"a | ".toList = true ∧
      complete "echo \"a | wh" 12 Sample.machine =
        .listing ["whereis", "which", "who", "whoami", "whois"] := by
  have hquoted : LastWord "echo \"a | wh".toList "echo \"a | ".toList ['w', 'h'] :=
    .of_eq (by decide +kernel)
  have hplain : LastWord "echo a | wh".toList "echo a | ".toList ['w', 'h'] :=
    .of_eq (by decide +kernel)
  have hcut : Chars.cut 12 "echo \"a | wh".toList = ("echo \"a | wh".toList, []) := by decide +kernel
  have hcut' : Chars.cut 11 "echo a | wh".toList = ("echo a | wh".toList, []) := by decide +kernel
  refine ⟨?_, ?_, by decide +kernel, by decide +kernel⟩
  · rw [startsStage_iff hcut (by decide +kernel) hquoted]
    decide +kernel
  · rw [startsStage_iff hcut' (by decide +kernel) hplain]
    decide +kernel

end PocketUnix.Completion
