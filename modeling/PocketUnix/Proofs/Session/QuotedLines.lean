import PocketUnix.Proofs.Completion.Words
import PocketUnix.Proofs.Session.SavedText
import PocketUnix.Proofs.Session.Transcripts

/-!
# Words that are written in quotes

There are two kinds of quotes, and each can stand around the other, so that every list of words can
be written letter by letter in quotes. The cut at bars and the scan for words each keep track of
quotes on their own, and both of them read such a line back.
-/

namespace PocketUnix

namespace Shell

/-- Double quotes, but for a letter that is one itself. -/
def quoteFor (c : Char) : Char := if c = '"' then '\'' else '"'

/-- A word with quotes around each of its letters. An empty word is a pair of double quotes. -/
def quoted (word : String) : String :=
  if word = "" then "\"\"" else .ofList (word.toList.flatMap fun c => [quoteFor c, c, quoteFor c])

/-- The words in quotes, with a blank between any two. -/
def quotedLine (words : List String) : String := " ".intercalate (words.map quoted)

def quotedSpelling (word : String) : Spelling :=
  if word = "" then [.quoted '"' []] else word.toList.map fun c => .quoted (quoteFor c) [c]

variable {words : List String} {a b s : List Char}

theorem isQuote_quoteFor (c : Char) : isQuote (quoteFor c) = true := by
  unfold quoteFor
  split <;> rfl

theorem quoteFor_ne (c : Char) : quoteFor c ≠ c := by
  unfold quoteFor
  split
  · next h => rw [h]; decide
  · next h => exact fun hsame => h hsame.symm

theorem written_quotedSpelling (word : String) :
    (quotedSpelling word).written = (quoted word).toList := by
  unfold quotedSpelling quoted
  split
  · rfl
  · rw [Spelling.written, List.flatMap_map, String.toList_ofList]
    rfl

/-- The spelling stands for the letters of the word. -/
theorem letters_quotedSpelling (word : String) :
    String.ofList (quotedSpelling word).letters = word := by
  unfold quotedSpelling
  split
  · next hempty => rw [hempty]; rfl
  · have hletters : (word.toList.map fun c => Span.quoted (quoteFor c) [c]).flatMap Span.letters =
        word.toList := by
      rw [List.flatMap_map]
      exact List.flatMap_singleton' word.toList
    rw [Spelling.letters, hletters, String.ofList_toList]

/-- And it can be read, since each letter is in the quotes that it is not. -/
theorem readable_quotedSpelling (word : String) : (quotedSpelling word).Readable := by
  unfold quotedSpelling
  split
  · exact ⟨List.cons_ne_nil _ _, List.forall_mem_singleton.mpr ⟨rfl, List.not_mem_nil⟩⟩
  · next hword =>
    refine ⟨fun hnil => hword (String.toList_eq_nil_iff.mp (List.map_eq_nil_iff.mp hnil)), ?_⟩
    intro span hspan
    obtain ⟨c, -, rfl⟩ := List.mem_map.mp hspan
    exact ⟨isQuote_quoteFor c, fun hc => quoteFor_ne c (List.mem_singleton.mp hc)⟩

/-- Nothing stands outside quotes. -/
theorem hides_quotedSpelling (separator : Char) (word : String) :
    ∀ span ∈ quotedSpelling word, span.Hides separator := by
  intro span hspan
  unfold quotedSpelling at hspan
  split at hspan
  · rw [List.mem_singleton.mp hspan]
    trivial
  · obtain ⟨c, -, rfl⟩ := List.mem_map.mp hspan
    trivial

/-- The letters of a line are those of its words, with a blank between any two. -/
theorem ofList_line (ws : List Spelling) : String.ofList (Spelling.line ws) =
    " ".intercalate (ws.map fun w => String.ofList w.written) := by
  induction ws with
  | nil => rfl
  | cons w rest ih =>
    cases rest with
    | nil => simp [Spelling.line]
    | cons next others =>
      have hsplit : Spelling.line (w :: next :: others) =
          w.written ++ (" ".toList ++ Spelling.line (next :: others)) := rfl
      rw [hsplit, String.ofList_append, String.ofList_append, ih, String.ofList_toList]
      simp only [List.map_cons, String.intercalate_cons_cons, String.append_assoc]

theorem quotedLine_eq (words : List String) :
    quotedLine words = String.ofList (Spelling.line (words.map quotedSpelling)) := by
  have hwritten : (fun w => String.ofList (quotedSpelling w).written) = quoted := by
    funext w
    rw [written_quotedSpelling, String.ofList_toList]
  rw [ofList_line, List.map_map, quotedLine]
  exact congrArg (fun f => " ".intercalate (words.map f)) hwritten.symm

theorem readable_map_quotedSpelling (words : List String) :
    ∀ w ∈ words.map quotedSpelling, w.Readable := by
  intro w hw
  obtain ⟨word, -, rfl⟩ := List.mem_map.mp hw
  exact readable_quotedSpelling word

/-- No bar is seen in the line. -/
theorem parts_quotedLine (words : List String) :
    parts '|' (quotedLine words) = [quotedLine words] := by
  have hhides : ∀ w ∈ words.map quotedSpelling, ∀ span ∈ w, span.Hides '|' := by
    intro w hw
    obtain ⟨word, -, rfl⟩ := List.mem_map.mp hw
    exact hides_quotedSpelling '|' word
  rw [quotedLine_eq]
  exact parts_ofList_line (by decide) (readable_map_quotedSpelling words) hhides

theorem words_quotedLine (words : List String) : Shell.words (quotedLine words) = words := by
  rw [quotedLine_eq, words_ofList_line (readable_map_quotedSpelling words), List.map_map]
  exact List.map_id'' letters_quotedSpelling words

/-- Quotes stand at both ends. -/
structure Enclosed (s : List Char) : Prop where
  first : ∃ q rest, isQuote q = true ∧ s = q :: rest
  last : ∃ front q, isQuote q = true ∧ s = front ++ [q]

namespace Enclosed

theorem append (ha : Enclosed a) (hb : Enclosed b) (gap : List Char) :
    Enclosed (a ++ (gap ++ b)) := by
  obtain ⟨q, rest, hq, rfl⟩ := ha.first
  obtain ⟨front, r, hr, rfl⟩ := hb.last
  refine ⟨⟨q, _, hq, List.cons_append⟩, ⟨q :: rest ++ gap ++ front, r, hr, ?_⟩⟩
  simp

theorem written {q : Char} (hq : isQuote q = true) (letters : List Char) :
    Enclosed (Span.quoted q letters).written :=
  ⟨⟨q, _, hq, rfl⟩, ⟨q :: letters, q, hq, rfl⟩⟩

theorem letters (c : Char) (cs : List Char) :
    Enclosed ((c :: cs).flatMap fun c => [quoteFor c, c, quoteFor c]) := by
  have hfirst (c : Char) : Enclosed [quoteFor c, c, quoteFor c] := written (isQuote_quoteFor c) [c]
  induction cs generalizing c with
  | nil => simpa using hfirst c
  | cons d ds ih => exact (hfirst c).append (ih d) []

theorem quoted (word : String) : Enclosed (quoted word).toList := by
  unfold Shell.quoted
  split
  · exact written rfl []
  · next hword =>
    obtain ⟨c, cs, hcs⟩ := List.exists_cons_of_ne_nil (mt String.toList_eq_nil_iff.mp hword)
    rw [String.toList_ofList, hcs]
    exact letters c cs

/-- The first quote of the first word and the last quote of the last one enclose the line. -/
theorem quotedLine (hwords : words ≠ []) : Enclosed (quotedLine words).toList := by
  induction words with
  | nil => exact absurd rfl hwords
  | cons word rest ih =>
    cases rest with
    | nil => simpa [Shell.quotedLine] using quoted word
    | cons next others =>
      have hsplit : (Shell.quotedLine (word :: next :: others)).toList =
          (Shell.quoted word).toList ++
            (" ".toList ++ (Shell.quotedLine (next :: others)).toList) := by
        simp only [Shell.quotedLine, List.map_cons, String.intercalate_cons_cons,
          String.toList_append, List.append_assoc]
      rw [hsplit]
      exact (quoted word).append (ih (List.cons_ne_nil _ _)) _

/-- No quote is a blank. -/
theorem isTrimmed (h : Enclosed s) : Chars.IsTrimmed s := by
  obtain ⟨q, rest, hq, hfirst⟩ := h.first
  obtain ⟨front, r, hr, hlast⟩ := h.last
  have hblank : ∀ c, isQuote c = true → Chars.isBlank c = false := by
    intro c hc
    cases hb : Chars.isBlank c with
    | false => rfl
    | true => rw [isQuote_of_isBlank hb] at hc; cases hc
  exact ⟨⟨q, by rw [hfirst]; rfl, hblank q hq⟩, r, by rw [hlast, List.getLast?_concat]; rfl,
    hblank r hr⟩

end Enclosed

theorem trim_quotedLine (hwords : words ≠ []) :
    Text.trim (Shell.quotedLine words) = Shell.quotedLine words := by
  rw [Text.trim, (Enclosed.quotedLine hwords).isTrimmed.trim_eq, String.ofList_toList]

end Shell

namespace Session

variable {s : Session} {line : String}

theorem machine_foldl_applyEffect (effects : List Effect) (s : Session) :
    (effects.foldl applyEffect s).machine = s.machine := by
  induction effects generalizing s with
  | nil => rfl
  | cons effect rest ih => cases effect <;> exact ih _

theorem machine_showAnswer (answer : Except Fault Reply) (s : Session) :
    (s.showAnswer answer).machine = s.machine := by
  unfold showAnswer
  split
  · split <;> rfl
  · rfl

theorem machine_submitLine (hediting : s.isEditing = false) (hblank : Text.trim line ≠ "") :
    (s.submitLine line).machine =
      (Evaluation.ofLine s.clock.now s.submitted (Text.trim line) s.machine).machine := by
  rw [submitLine_of_ne_blank hediting hblank]
  dsimp only
  rw [machine_showAnswer, machine_foldl_applyEffect, ran]

end Session

namespace Evaluation

open Shell

/-- A line of words in quotes runs these words as one command. -/
theorem ofLine_quoted (now : DateTime) (history words : List String) (m : Machine) :
    ofLine now history (quotedLine words) m =
      ofOutcome (Command.run ⟨"", now, history⟩ words m) := by
  rw [ofLine_whole (parts_quotedLine words), words_quotedLine]

/-- Every command with every list of arguments can be given as a line: evaluated, the line is the
call of the command, and entered in a session it comes to this call as it is written. -/
theorem ofLine_quotedLine (now : DateTime) (history words : List String) (m : Machine) :
    ofLine now history (quotedLine words) m =
        ofOutcome (Command.run ⟨"", now, history⟩ words m) ∧
      (words ≠ [] → Text.trim (quotedLine words) = quotedLine words ∧
        ∀ s : Session, s.isEditing = false → (s.submitLine (quotedLine words)).machine =
          (Command.run ⟨"", s.clock.now, s.submitted⟩ words s.machine).machine) := by
  refine ⟨ofLine_quoted now history words m, fun hwords => ?_⟩
  have henclosed : Enclosed (quotedLine words).toList := .quotedLine hwords
  have htrim : Text.trim (quotedLine words) = quotedLine words := trim_quotedLine hwords
  have hblank : Text.trim (quotedLine words) ≠ "" := by
    obtain ⟨q, rest, -, hfirst⟩ := henclosed.first
    rw [htrim]
    intro hempty
    rw [hempty] at hfirst
    cases hfirst
  refine ⟨htrim, fun s hediting => ?_⟩
  rw [Session.machine_submitLine hediting hblank, htrim, ofLine_quoted, ofOutcome]
  split <;> rfl

/-- Bars, blanks, quotes of both kinds and nothing at all are words like others. -/
theorem ofLine_quotedLine_echo :
    let words := ["echo", "a | b", "say \"it's\"", "", ">", "my file"]
    (ofLine Sample.time [] (quotedLine words) Sample.machine).answer = .ok .empty ∧
      (Sample.session.submitLine (quotedLine words)).machine.root.readText "user"
        (Sample.machine.resolve "my file") = .ok "a | b say \"it's\" " := by
  intro words
  obtain ⟨hevaluated, hentered⟩ := ofLine_quotedLine Sample.time [] words Sample.machine
  obtain ⟨-, hmachine⟩ := hentered (List.cons_ne_nil _ _)
  constructor
  · rw [hevaluated]
    decide +kernel
  · rw [hmachine Sample.session rfl]
    decide +kernel

end Evaluation

end PocketUnix
