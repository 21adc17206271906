import PocketUnix.Command.Reading
import PocketUnix.Proofs.Command.Call
import PocketUnix.Proofs.Shell.Options
import PocketUnix.Proofs.Tree.StoredText

/-!
# Text that `echo` stores and `cat` prints

The redirection of `echo` is found in the words behind their quotes: the first word that begins with
an angle bracket is its mark. What is written to a file that is new or overwritten is all that it
holds, and what `cat` prints.
-/

namespace PocketUnix

namespace Call

variable {c : Call} {m : Machine} {operand text : String} {appending : Bool} {root root' : Node}

/-- A file that is new or overwritten holds just what is written to it. -/
theorem get?_writeFile (h : c.writeFile m operand text appending root = .ok () root')
    (hnew : appending = false ∨ root.contains (m.resolve operand) = false) :
    ∃ attributes, root'.get? (m.resolve operand) = some (.file attributes text) := by
  cases appending with
  | false =>
    cases hs : root.write (m.resolve operand) m.user m.group c.now text with
    | error fault => simp [writeFile, Action.update, hs] at h
    | ok stored =>
      simp only [writeFile, Action.update, hs, Bool.false_eq_true, if_false] at h
      cases h
      exact Node.get?_store hs
  | true =>
    obtain hfalse | habsent := hnew
    · cases hfalse
    cases hs : root.append (m.resolve operand) m.user m.group c.now text with
    | error fault => simp [writeFile, Action.update, hs] at h
    | ok stored =>
      simp only [writeFile, Action.update, hs, if_true] at h
      cases h
      have hnone : root.get? (m.resolve operand) = none := by
        simpa [Node.contains] using habsent
      obtain ⟨attributes, hfile⟩ := Node.get?_store hs
      rw [hnone] at hfile
      exact ⟨attributes, hfile⟩

/-- Writing to one file is not seen at any other path, but for the entries of directories. -/
theorem bareAt_writeFile (h : c.writeFile m operand text appending root = .ok () root') {q : Path}
    (hq : q ≠ m.resolve operand) : root'.bareAt q = root.bareAt q := by
  obtain ⟨compose, hs⟩ := exists_store_of_writeFile h
  exact Node.bareAt_store hs hq

end Call

namespace Writing

variable {c : Call} {m : Machine} {word file : String}

/-- The mark of a redirection begins with an angle bracket, and so does every text with a mark. -/
theorem mark?_eq_none_iff : mark? word = none ↔ word.toList.head? ≠ some '>' := by
  cases hw : word.toList with
  | nil => simp [mark?, hw]
  | cons first rest =>
    by_cases hfirst : first = '>'
    · subst hfirst
      cases rest with
      | nil => simp [mark?, hw]
      | cons second tail =>
        by_cases hsecond : second = '>'
        · subst hsecond
          simp [mark?, hw]
        · simp [mark?, hw, hsecond]
    · simp [mark?, hw, hfirst]

/-- A word without a mark in front of a redirection is all that is stored. -/
theorem redirected_of_unmarked (h : mark? word = none) :
    redirected [word, ">", file] = .ok ([word], some ⟨false, file⟩) := by
  have hmark : mark? ">" = some (false, "") := by decide
  simp [redirected, h, hmark, bind, Except.bind]

/-- A word with a mark takes the place of the redirection behind it. -/
theorem redirected_of_marked {appending : Bool} {glued : String}
    (h : mark? word = some (appending, glued)) : redirected [word, ">", file] =
      if glued = "" then .ok ([file], some ⟨appending, ">"⟩)
      else .ok ([">", file], some ⟨appending, glued⟩) := by
  by_cases hg : glued = "" <;> simp [redirected, h, hg]

/-- A redirected `echo` stores its text and says nothing, unless the text cannot be stored. -/
theorem ofTree_echo {words : List String} {r : Redirection}
    (h : redirected (echoWords c.args) = .ok (words, some r)) :
    (∃ root, c.writeFile m r.file (" ".intercalate words) r.appending m.root = .ok () root ∧
        Outcome.ofTree m (echo c m) = .reply { m with root } .empty) ∨
      (∃ fault root, c.writeFile m r.file (" ".intercalate words) r.appending m.root =
          .error fault root) ∧
        ∃ fault, (Outcome.ofTree m (echo c m)).answer = .error fault := by
  have hecho : echo c m = (do
      c.writeFile m r.file (" ".intercalate words) r.appending
      return .empty) := by
    unfold echo
    rw [h]
    rfl
  cases hw : c.writeFile m r.file (" ".intercalate words) r.appending m.root with
  | ok _ root =>
    refine .inl ⟨root, rfl, ?_⟩
    simp only [Outcome.ofTree, Outcome.ofAction, Action.onTree, hecho, Action.bind_apply, hw,
      Action.pure_apply]
    rfl
  | error fault root =>
    refine .inr ⟨⟨fault, root, rfl⟩, fault, ?_⟩
    simp only [Outcome.ofTree, Outcome.ofAction, Action.onTree, hecho, Action.bind_apply, hw]

end Writing

namespace Reading

/-- A single operand is read and printed. -/
theorem cat_operand {c : Call} {m : Machine} {file : String} (hargs : c.args = [file])
    (hdash : file.toList.head? ≠ some '-') : cat c m = (c.readFile m file).map .output := by
  have hoptions : c.options "" = { operands := [file] } := by
    rw [Call.options, hargs, Shell.Options.ofArgs_operand hdash]
  have hname : file ≠ "-" := by
    rintro rfl
    exact hdash rfl
  have hinput : c.readInput m (some file) = c.readFile m file := by
    simp [Call.readInput, hname]
  have hn : Shell.Options.has { operands := [file] } 'n' = false := rfl
  unfold cat
  rw [hoptions]
  dsimp only
  rw [hn]
  cases hread : c.readFile m file with
  | ok text =>
    simp [hinput, hread, bind, Except.bind, pure, Except.pure, Text.joinLines, Except.map]
  | error fault =>
    simp [hinput, hread, bind, Except.bind, Except.map]

end Reading

end PocketUnix
