import PocketUnix.Shell.Words

/-!
# Lines that are written word by word

A word is written in spans, some of them plain and some in quotes. A line of such words, with a
blank between any two, is read back as these words, and is not cut at separators in quotes.
-/

namespace PocketUnix.Shell

/-- A stretch of a word, as it is or between quotes. -/
inductive Span where
  | plain (letters : List Char)
  | quoted (quote : Char) (letters : List Char)

namespace Span

def letters : Span → List Char
  | plain letters => letters
  | quoted _ letters => letters

def written : Span → List Char
  | plain letters => letters
  | quoted q letters => q :: (letters ++ [q])

/-- Plain letters need no quotes, and letters in quotes do not end them. -/
def Readable : Span → Prop
  | plain letters => letters ≠ [] ∧ ∀ c ∈ letters, isQuote c = false ∧ Chars.isBlank c = false
  | quoted q letters => isQuote q = true ∧ q ∉ letters

/-- The span does not show a separator outside quotes. -/
def Hides (separator : Char) : Span → Prop
  | plain letters => separator ∉ letters
  | quoted _ _ => True

end Span

/-- A word, span by span. -/
abbrev Spelling := List Span

namespace Spelling

def letters (w : Spelling) : List Char := w.flatMap Span.letters

def written (w : Spelling) : List Char := w.flatMap Span.written

/-- An empty word needs a pair of quotes. -/
def Readable (w : Spelling) : Prop := w ≠ [] ∧ ∀ s ∈ w, s.Readable

/-- The line of some words. -/
def line : List Spelling → List Char
  | [] => []
  | [w] => w.written
  | w :: rest => w.written ++ ' ' :: line rest

end Spelling

section Letters

variable {c : Char} (word : Option (List Char)) (cs : List Char)

theorem scanWords_letter (hquote : isQuote c = false) (hblank : Chars.isBlank c = false) :
    scanWords none word (c :: cs) = scanWords none (some (c :: word.getD [])) cs := by
  cases word <;> simp [scanWords, hquote, hblank]

theorem scanWords_open (hquote : isQuote c = true) :
    scanWords none word (c :: cs) = scanWords (some c) (some (word.getD [])) cs := by
  cases word <;> simp [scanWords, hquote]

theorem scanWords_blank (word : List Char) (hquote : isQuote c = false)
    (hblank : Chars.isBlank c = true) :
    scanWords none (some word) (c :: cs) = word.reverse :: scanWords none none cs := by
  simp [scanWords, hquote, hblank]

end Letters

/-- Plain letters are added to the word one by one. -/
theorem scanWords_plain {letters : List Char}
    (h : ∀ c ∈ letters, isQuote c = false ∧ Chars.isBlank c = false) (word rest : List Char) :
    scanWords none (some word) (letters ++ rest) =
      scanWords none (some (letters.reverse ++ word)) rest := by
  induction letters generalizing word with
  | nil => rfl
  | cons c cs ih =>
    obtain ⟨⟨hquote, hblank⟩, hrest⟩ := List.forall_mem_cons.mp h
    rw [List.cons_append, scanWords_letter _ _ hquote hblank, ih hrest]
    simp

/-- Letters between quotes are added to the word, without the quotes. -/
theorem scanWords_quoted {q : Char} {letters : List Char} (h : q ∉ letters)
    (word rest : List Char) :
    scanWords (some q) (some word) (letters ++ q :: rest) =
      scanWords none (some (letters.reverse ++ word)) rest := by
  induction letters generalizing word with
  | nil => simp [scanWords]
  | cons c cs ih =>
    have hc : c ≠ q := by
      rintro rfl
      exact h List.mem_cons_self
    have hrest : q ∉ cs := fun hq => h (List.mem_cons_of_mem c hq)
    simp [scanWords, hc, ih hrest]

/-- A span adds its letters to the word. -/
theorem scanWords_span {s : Span} (h : s.Readable) (word : Option (List Char))
    (rest : List Char) :
    scanWords none word (s.written ++ rest) =
      scanWords none (some (s.letters.reverse ++ word.getD [])) rest := by
  cases s with
  | plain letters =>
    obtain ⟨hne, hletters⟩ := h
    cases letters with
    | nil => exact absurd rfl hne
    | cons c cs =>
      obtain ⟨⟨hquote, hblank⟩, hrest⟩ := List.forall_mem_cons.mp hletters
      rw [Span.written, List.cons_append, scanWords_letter _ _ hquote hblank, scanWords_plain hrest]
      simp [Span.letters]
  | quoted q letters =>
    obtain ⟨hquote, hletters⟩ := h
    have hend : (Span.quoted q letters).written ++ rest = q :: (letters ++ q :: rest) := by
      simp [Span.written]
    rw [hend, scanWords_open _ _ hquote, scanWords_quoted hletters, Span.letters]

/-- A word is read span by span. -/
theorem scanWords_spelling {w : Spelling} (h : w.Readable) (rest : List Char) :
    scanWords none none (w.written ++ rest) = scanWords none (some w.letters.reverse) rest := by
  have hspans : ∀ (w : Spelling) (word : List Char), (∀ s ∈ w, s.Readable) →
      scanWords none (some word) (w.written ++ rest) =
        scanWords none (some (w.letters.reverse ++ word)) rest := by
    intro w
    induction w with
    | nil => intro word _; rfl
    | cons s spans ih =>
      intro word hall
      obtain ⟨hs, hrest⟩ := List.forall_mem_cons.mp hall
      simp only [Spelling.written, Spelling.letters, List.flatMap_cons, List.append_assoc] at ih ⊢
      rw [scanWords_span hs, ih _ hrest]
      simp
  obtain ⟨hne, hall⟩ := h
  cases w with
  | nil => exact absurd rfl hne
  | cons s spans =>
    obtain ⟨hs, hrest⟩ := List.forall_mem_cons.mp hall
    have htail := hspans spans s.letters.reverse hrest
    simp only [Spelling.written, Spelling.letters, List.flatMap_cons, List.append_assoc] at htail ⊢
    rw [scanWords_span hs, Option.getD_none, List.append_nil, htail, List.reverse_append]

/-- A line is read as the words that it is written from. -/
theorem scanWords_line {ws : List Spelling} (h : ∀ w ∈ ws, w.Readable) :
    scanWords none none (Spelling.line ws) = ws.map Spelling.letters := by
  induction ws with
  | nil => rfl
  | cons w rest ih =>
    obtain ⟨hw, hrest⟩ := List.forall_mem_cons.mp h
    cases rest with
    | nil =>
      have hlast := scanWords_spelling hw []
      rw [List.append_nil] at hlast
      rw [Spelling.line, hlast]
      simp [scanWords]
    | cons next others =>
      have hblank : Chars.isBlank ' ' = true := by decide
      have hquote : isQuote ' ' = false := by decide
      rw [Spelling.line, scanWords_spelling hw, scanWords_blank _ _ hquote hblank, ih hrest]
      · simp
      · simp

theorem words_ofList_line {ws : List Spelling} (h : ∀ w ∈ ws, w.Readable) :
    words (String.ofList (Spelling.line ws)) = ws.map fun w => String.ofList w.letters := by
  rw [words, String.toList_ofList, scanWords_line h, List.map_map]
  rfl

/-- Letters in front of the first piece. -/
def prependFirst (letters : List Char) (pieces : List (List Char)) : List (List Char) :=
  letters.foldr Chars.consFirst pieces

theorem prependFirst_append (a b : List Char) (pieces : List (List Char)) :
    prependFirst (a ++ b) pieces = prependFirst a (prependFirst b pieces) :=
  List.foldr_append

theorem prependFirst_singleton (letters piece : List Char) :
    prependFirst letters [piece] = [letters ++ piece] := by
  induction letters with
  | nil => rfl
  | cons c cs ih =>
    have hstep : prependFirst (c :: cs) [piece] = Chars.consFirst c (prependFirst cs [piece]) := rfl
    rw [hstep, ih]
    rfl

variable {separator : Char}

theorem splitUnquoted_plain {letters : List Char}
    (h : ∀ c ∈ letters, isQuote c = false ∧ c ≠ separator) (rest : List Char) :
    splitUnquoted separator none (letters ++ rest) =
      prependFirst letters (splitUnquoted separator none rest) := by
  induction letters with
  | nil => rfl
  | cons c cs ih =>
    obtain ⟨⟨hquote, hne⟩, hrest⟩ := List.forall_mem_cons.mp h
    simp [splitUnquoted, hquote, hne, ih hrest, prependFirst]

/-- A line is not cut between quotes. -/
theorem splitUnquoted_quoted {q : Char} {letters : List Char} (h : q ∉ letters)
    (rest : List Char) :
    splitUnquoted separator (some q) (letters ++ q :: rest) =
      prependFirst (letters ++ [q]) (splitUnquoted separator none rest) := by
  induction letters with
  | nil => simp [splitUnquoted, prependFirst]
  | cons c cs ih =>
    have hc : c ≠ q := by
      rintro rfl
      exact h List.mem_cons_self
    have hrest : q ∉ cs := fun hq => h (List.mem_cons_of_mem c hq)
    simp [splitUnquoted, hc, ih hrest, prependFirst]

/-- A line is not cut within a span that hides its separators. -/
theorem splitUnquoted_span {s : Span} (h : s.Readable) (hs : s.Hides separator)
    (rest : List Char) :
    splitUnquoted separator none (s.written ++ rest) =
      prependFirst s.written (splitUnquoted separator none rest) := by
  cases s with
  | plain letters =>
    have hletters : ∀ c ∈ letters, isQuote c = false ∧ c ≠ separator := by
      intro c hc
      refine ⟨(h.2 c hc).1, ?_⟩
      rintro rfl
      exact hs hc
    exact splitUnquoted_plain hletters rest
  | quoted q letters =>
    obtain ⟨hquote, hletters⟩ := h
    have hend : (Span.quoted q letters).written ++ rest = q :: (letters ++ q :: rest) := by
      simp [Span.written]
    have hquoted : splitUnquoted separator (some q) (letters ++ q :: rest) =
        prependFirst (letters ++ [q]) (splitUnquoted separator none rest) :=
      splitUnquoted_quoted hletters rest
    rw [hend]
    simp [splitUnquoted, hquote, hquoted, Span.written, prependFirst]

/-- A line is not cut within such a word. -/
theorem splitUnquoted_spelling {w : Spelling} (h : w.Readable) (hw : ∀ s ∈ w, s.Hides separator)
    (rest : List Char) :
    splitUnquoted separator none (w.written ++ rest) =
      prependFirst w.written (splitUnquoted separator none rest) := by
  obtain ⟨-, hall⟩ := h
  induction w with
  | nil => rfl
  | cons s spans ih =>
    obtain ⟨hs, hspans⟩ := List.forall_mem_cons.mp hall
    obtain ⟨hhides, hrest⟩ := List.forall_mem_cons.mp hw
    have htail := ih hrest hspans
    simp only [Spelling.written, List.flatMap_cons, List.append_assoc] at htail ⊢
    rw [splitUnquoted_span hs hhides, htail, prependFirst_append]

/-- A line whose words hide all separators is not cut. -/
theorem splitUnquoted_line (hblank : separator ≠ ' ') {ws : List Spelling}
    (h : ∀ w ∈ ws, w.Readable) (hs : ∀ w ∈ ws, ∀ s ∈ w, s.Hides separator) :
    splitUnquoted separator none (Spelling.line ws) = [Spelling.line ws] := by
  induction ws with
  | nil => rfl
  | cons w rest ih =>
    obtain ⟨hw, hrest⟩ := List.forall_mem_cons.mp h
    obtain ⟨hhides, hrests⟩ := List.forall_mem_cons.mp hs
    cases rest with
    | nil =>
      have hlast := splitUnquoted_spelling hw hhides []
      rw [List.append_nil] at hlast
      rw [Spelling.line, hlast, splitUnquoted, prependFirst_singleton, List.append_nil]
    | cons next others =>
      have hgap : splitUnquoted separator none (' ' :: Spelling.line (next :: others)) =
          [' ' :: Spelling.line (next :: others)] := by
        have hletters : ∀ c ∈ [' '], isQuote c = false ∧ c ≠ separator := by
          simp [isQuote, Ne.symm hblank]
        have hfirst := splitUnquoted_plain hletters (Spelling.line (next :: others))
        rw [ih hrest hrests, prependFirst_singleton] at hfirst
        exact hfirst
      rw [Spelling.line, splitUnquoted_spelling hw hhides, hgap, prependFirst_singleton]
      simp

theorem parts_ofList_line (hblank : separator ≠ ' ') {ws : List Spelling}
    (h : ∀ w ∈ ws, w.Readable) (hs : ∀ w ∈ ws, ∀ s ∈ w, s.Hides separator) :
    parts separator (String.ofList (Spelling.line ws)) = [String.ofList (Spelling.line ws)] := by
  rw [parts, String.toList_ofList, splitUnquoted_line hblank h hs]
  rfl

end PocketUnix.Shell
