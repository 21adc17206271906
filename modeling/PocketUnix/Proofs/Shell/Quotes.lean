import PocketUnix.Proofs.Shell.Words

/-!
# Open quotes

Words and parts of a line are both found in one pass that only has to know which quote is open.
So a line can be read in two goes: from where no quote is open the rest is read like a line of its
own.
-/

namespace PocketUnix.Shell

/-- The quote that is open behind a text, where this one is open in front of it. -/
def openQuote : Option Char → List Char → Option Char
  | q, [] => q
  | some q, c :: cs => openQuote (if c = q then none else some q) cs
  | none, c :: cs => openQuote (if isQuote c then some c else none) cs

variable {quote : Option Char} {separator : Char} {front rest s lead word gap tail : List Char}

/-- Blanks are not quotes. -/
theorem isQuote_of_isBlank {c : Char} (h : Chars.isBlank c = true) : isQuote c = false := by
  rw [isQuote, Bool.or_eq_false_iff, beq_eq_false_iff_ne, beq_eq_false_iff_ne]
  constructor
  · rintro rfl
    exact absurd h (by decide)
  · rintro rfl
    exact absurd h (by decide)

theorem openQuote_append (quote : Option Char) (front rest : List Char) :
    openQuote quote (front ++ rest) = openQuote (openQuote quote front) rest := by
  induction front generalizing quote with
  | nil => cases quote <;> rfl
  | cons c cs ih => cases quote <;> exact ih _

/-- Only quotes open and close anything. -/
theorem openQuote_of_forall (h : ∀ c ∈ s, isQuote c = false)
    (hquote : ∀ q ∈ quote, isQuote q = true) : openQuote quote s = quote := by
  induction s with
  | nil => cases quote <;> rfl
  | cons c cs ih =>
    obtain ⟨hc, hcs⟩ := List.forall_mem_cons.mp h
    cases quote with
    | none => simp [openQuote, hc, ih hcs]
    | some q =>
      have hne : c ≠ q := by
        rintro rfl
        exact absurd (hquote c rfl) (by simp [hc])
      simp [openQuote, hne, ih hcs]

/-- What is open is a quote. -/
theorem isQuote_of_openQuote (h : ∀ q ∈ quote, isQuote q = true) :
    ∀ q ∈ openQuote quote s, isQuote q = true := by
  induction s generalizing quote with
  | nil => cases quote <;> exact h
  | cons c cs ih =>
    cases quote with
    | none =>
      refine ih fun q hq => ?_
      split at hq
      · next hc => exact Option.mem_some.mp hq ▸ hc
      · cases hq
    | some x =>
      refine ih fun q hq => ?_
      split at hq
      · cases hq
      · exact h q hq

/-- What has no quotes leaves open what is open in front of it. -/
theorem openQuote_append_of_forall (front : List Char) (h : ∀ c ∈ rest, isQuote c = false) :
    openQuote none (front ++ rest) = openQuote none front := by
  rw [openQuote_append]
  exact openQuote_of_forall h (isQuote_of_openQuote fun _ hq => nomatch hq)

/-- A line has a part at least. -/
theorem splitUnquoted_ne_nil (separator : Char) (quote : Option Char) (s : List Char) :
    splitUnquoted separator quote s ≠ [] := by
  have hfirst : ∀ (c : Char) (pieces : List (List Char)), Chars.consFirst c pieces ≠ [] := by
    intro c pieces
    cases pieces <;> exact List.cons_ne_nil _ _
  cases s with
  | nil => cases quote <;> exact List.cons_ne_nil _ _
  | cons c cs =>
    cases quote with
    | some q => exact hfirst _ _
    | none =>
      rw [splitUnquoted]
      split
      · exact hfirst _ _
      · split
        · exact List.cons_ne_nil _ _
        · exact hfirst _ _

theorem parts_ne_nil (separator : Char) (line : String) : parts separator line ≠ [] := by
  rw [parts, Ne, List.map_eq_nil_iff]
  exact splitUnquoted_ne_nil _ _ _

theorem consFirst_append {pieces : List (List Char)} (h : pieces ≠ []) (c : Char)
    (others : List (List Char)) :
    Chars.consFirst c (pieces ++ others) = Chars.consFirst c pieces ++ others := by
  cases pieces with
  | nil => exact absurd rfl h
  | cons piece pieces => rfl

/-- At a separator outside quotes the line is cut, and the rest is cut as if it stood alone. -/
theorem splitUnquoted_append_separator (hseparator : isQuote separator = false)
    (h : openQuote quote front = none) :
    splitUnquoted separator quote (front ++ separator :: rest) =
      splitUnquoted separator quote front ++ splitUnquoted separator none rest := by
  induction front generalizing quote with
  | nil =>
    cases quote with
    | some q => cases h
    | none => simp [splitUnquoted, hseparator]
  | cons c cs ih =>
    have hne := splitUnquoted_ne_nil separator
    cases quote with
    | some q =>
      rw [List.cons_append, splitUnquoted, ih h, consFirst_append (hne _ _), splitUnquoted]
    | none =>
      rw [openQuote] at h
      rw [List.cons_append, splitUnquoted, splitUnquoted]
      by_cases hc : isQuote c = true
      · simp only [if_pos hc] at h ⊢
        rw [ih h, consFirst_append (hne _ _)]
      · simp only [if_neg hc] at h ⊢
        rw [ih h]
        split
        · rfl
        · rw [consFirst_append (hne _ _)]

/-- A line is cut nowhere, or its last part begins behind a separator outside quotes. By induction
on the line: a letter that is no separator goes to the first part of what follows it. -/
theorem splitUnquoted_cases (hseparator : isQuote separator = false) (quote : Option Char)
    (s : List Char) : splitUnquoted separator quote s = [s] ∨
      ∃ front last, s = front ++ separator :: last ∧ openQuote quote front = none ∧
        splitUnquoted separator none last = [last] := by
  induction s generalizing quote with
  | nil => cases quote <;> exact .inl rfl
  | cons c cs ih =>
    have hletter : ∀ next, openQuote quote [c] = next →
        splitUnquoted separator quote (c :: cs) =
          Chars.consFirst c (splitUnquoted separator next cs) →
        splitUnquoted separator quote (c :: cs) = [c :: cs] ∨
          ∃ front last, c :: cs = front ++ separator :: last ∧ openQuote quote front = none ∧
            splitUnquoted separator none last = [last] := by
      rintro next hopen hstep
      rcases ih next with hall | ⟨front, last, hcs, hfront, hlast⟩
      · left
        rw [hstep, hall]
        rfl
      · right
        refine ⟨c :: front, last, by rw [hcs, List.cons_append], ?_, hlast⟩
        have happend := openQuote_append quote [c] front
        rw [hopen, hfront] at happend
        exact happend
    cases quote with
    | some q => exact hletter _ rfl rfl
    | none =>
      by_cases hc : isQuote c = true
      · refine hletter (some c) (by simp [openQuote, hc]) (by simp [splitUnquoted, hc])
      · by_cases hcut : c = separator
        · subst hcut
          right
          rcases ih none with hall | ⟨front, last, hcs, hfront, hlast⟩
          · exact ⟨[], cs, rfl, rfl, hall⟩
          · refine ⟨c :: front, last, by rw [hcs, List.cons_append], ?_, hlast⟩
            simpa [openQuote, hc] using hfront
        · refine hletter none (by simp [openQuote, hc]) (by simp [splitUnquoted, hc, hcut])

/-- The last part of a line is not cut, and is the whole line or begins behind a separator outside
quotes. -/
theorem getLast?_splitUnquoted_iff (hseparator : isQuote separator = false) {last : List Char} :
    (splitUnquoted separator none s).getLast? = some last ↔
      splitUnquoted separator none last = [last] ∧
        (s = last ∨ ∃ front, s = front ++ separator :: last ∧ openQuote none front = none) := by
  have hbehind : ∀ {front last}, openQuote none front = none →
      splitUnquoted separator none last = [last] →
      (splitUnquoted separator none (front ++ separator :: last)).getLast? = some last := by
    intro front last hfront hlast
    rw [splitUnquoted_append_separator hseparator hfront, hlast, List.getLast?_concat]
  constructor
  · intro h
    rcases splitUnquoted_cases hseparator none s with hall | ⟨front, other, rfl, hfront, hother⟩
    · rw [hall, List.getLast?_singleton, Option.some.injEq] at h
      exact ⟨h ▸ hall, .inl h⟩
    · rw [hbehind hfront hother, Option.some.injEq] at h
      subst h
      exact ⟨hother, .inr ⟨front, rfl, hfront⟩⟩
  · rintro ⟨hlast, rfl | ⟨front, rfl, hfront⟩⟩
    · rw [hlast, List.getLast?_singleton]
    · exact hbehind hfront hlast

/-- An end without separators is part of the last part of a line. -/
theorem exists_getLast?_splitUnquoted
    (hseparator : isQuote separator = false) (lead : List Char) (h : separator ∉ tail) :
    ∃ rest, rest <:+ lead ∧
      (splitUnquoted separator none (lead ++ tail)).getLast? = some (rest ++ tail) := by
  rcases splitUnquoted_cases hseparator none (lead ++ tail) with hall | ⟨front, last, hs, hq, hlast⟩
  · exact ⟨lead, List.suffix_rfl, by rw [hall, List.getLast?_singleton]⟩
  · have hpart := (getLast?_splitUnquoted_iff hseparator).mpr ⟨hlast, .inr ⟨front, hs, hq⟩⟩
    rcases List.append_eq_append_iff.mp hs with ⟨more, -, htail⟩ | ⟨more, hlead, hmore⟩
    · exact absurd (by simp [htail]) h
    · cases more with
      | nil =>
        rw [List.nil_append] at hmore
        exact absurd (hmore ▸ List.mem_cons_self) h
      | cons c more =>
        obtain ⟨rfl, rfl⟩ := List.cons.inj hmore
        exact ⟨more, ⟨front ++ [separator], by simp [hlead]⟩, hpart⟩

/-- Letters that cannot be cut at belong to the part that begins with them. -/
theorem splitUnquoted_append_eq_single
    (h : ∀ c ∈ front, isQuote c = false ∧ c ≠ separator) :
    splitUnquoted separator none (front ++ rest) = [front ++ rest] ↔
      splitUnquoted separator none rest = [rest] := by
  rw [splitUnquoted_plain h]
  cases hrest : splitUnquoted separator none rest with
  | nil => exact absurd hrest (splitUnquoted_ne_nil _ _ _)
  | cons piece pieces =>
    have hfirst : prependFirst front (piece :: pieces) = (front ++ piece) :: pieces := by
      clear h hrest
      induction front with
      | nil => rfl
      | cons c cs ih => rw [prependFirst, List.foldr_cons, ← prependFirst, ih]; rfl
    rw [hfirst]
    simp

/-- A blank outside quotes parts the words in front of it from those behind it, which are read as if
they stood alone. -/
theorem scanWords_append_blank {word : Option (List Char)} {blank : Char}
    (hblank : Chars.isBlank blank = true) (h : openQuote quote front = none) :
    scanWords quote word (front ++ blank :: rest) =
      scanWords quote word front ++ scanWords none none rest := by
  have hquote := isQuote_of_isBlank hblank
  induction front generalizing quote word with
  | nil =>
    cases quote with
    | some q => cases h
    | none => cases word <;> simp [scanWords, hquote, hblank]
  | cons c cs ih =>
    cases quote with
    | some q =>
      rw [openQuote] at h
      cases word <;> simp only [List.cons_append, scanWords] <;> split <;> simp_all
    | none =>
      rw [openQuote] at h
      by_cases hc : isQuote c = true
      · simp only [if_pos hc] at h
        cases word <;> simp only [List.cons_append, scanWords, if_pos hc, ih h]
      · simp only [if_neg hc] at h
        cases word <;> simp only [List.cons_append, scanWords, if_neg hc, ih h]
        · split <;> rfl
        · split <;> simp

theorem scanWords_blanks (h : ∀ c ∈ gap, Chars.isBlank c = true) : scanWords none none gap = [] := by
  induction gap with
  | nil => rfl
  | cons c cs ih =>
    obtain ⟨hc, hcs⟩ := List.forall_mem_cons.mp h
    simp [scanWords, isQuote_of_isBlank hc, hc, ih hcs]

/-- A word without quotes is read as it is. -/
theorem scanWords_word (hne : word ≠ [])
    (hword : ∀ c ∈ word, isQuote c = false ∧ Chars.isBlank c = false)
    (hgap : ∀ c ∈ gap, Chars.isBlank c = true) : scanWords none none (word ++ gap) = [word] := by
  have hspan : (Span.plain word).Readable := ⟨hne, hword⟩
  have hscan := scanWords_span hspan none gap
  simp only [Span.written, Span.letters, Option.getD_none, List.append_nil] at hscan
  rw [hscan]
  cases gap with
  | nil => simp [scanWords]
  | cons c cs =>
    obtain ⟨hc, hcs⟩ := List.forall_mem_cons.mp hgap
    rw [scanWords_blank _ _ (isQuote_of_isBlank hc) hc, scanWords_blanks hcs, List.reverse_reverse]

/-- Behind a blank outside quotes a plain word is the last one. -/
theorem getLast?_scanWords (hopen : openQuote none lead = none)
    (hlead : ∀ c ∈ lead.getLast?, Chars.isBlank c = true) (hne : word ≠ [])
    (hword : ∀ c ∈ word, isQuote c = false ∧ Chars.isBlank c = false)
    (hgap : ∀ c ∈ gap, Chars.isBlank c = true) :
    (scanWords none none (lead ++ (word ++ gap))).getLast? = some word := by
  have hscan := scanWords_word hne hword hgap
  cases hmark : lead.getLast? with
  | none =>
    rw [List.getLast?_eq_none_iff.mp hmark, List.nil_append, hscan, List.getLast?_singleton]
  | some blank =>
    obtain ⟨front, rfl⟩ := List.getLast?_eq_some_iff.mp hmark
    have hblank : Chars.isBlank blank = true := hlead blank hmark
    have hfront : openQuote none front = none := by
      rwa [openQuote_append_of_forall front
        (List.forall_mem_singleton.mpr (isQuote_of_isBlank hblank))] at hopen
    rw [List.append_assoc, List.singleton_append, scanWords_append_blank hblank hfront, hscan,
      List.getLast?_concat]

end PocketUnix.Shell
