import PocketUnix.Proofs.Text.Pieces
import PocketUnix.Proofs.Tree.Paths

/-!
# Names on paths

Some texts cannot be a part of a written path: what is empty or one of the dots is passed over, and
a slash ends a part. A path of other names is read back from the way it is displayed, and no other
path is ever read, as long as the working directory and the user have such names.
-/

namespace PocketUnix

namespace Path

/-- A text that names something where it stands between slashes. -/
def IsName (name : String) : Prop :=
  name ≠ "" ∧ name ≠ "." ∧ name ≠ ".." ∧ '/' ∉ name.toList

instance (name : String) : Decidable (IsName name) := by
  unfold IsName
  infer_instance

/-- All names on a path satisfy a condition. -/
def Named (P : String → Prop) (p : Path) : Prop := ∀ name ∈ p, P name

variable {P : String → Prop} {p cwd : Path} {user name : String}

theorem named_child : (p.child name).Named P ↔ p.Named P ∧ P name := by
  rw [Named, child, List.forall_mem_append, List.forall_mem_singleton, Named]

theorem Named.last (h : (p.child name).Named P) : P name := (named_child.mp h).2

theorem Named.dropLast (h : p.Named P) : Named P p.dropLast :=
  fun name hn => h name (List.dropLast_subset p hn)

theorem named_home (huser : IsName user) : (home user).Named IsName := by
  have hhome : IsName "home" := by decide
  exact List.forall_mem_cons.mpr ⟨hhome, List.forall_mem_singleton.mpr huser⟩

/-- A step goes by a name or adds none. -/
theorem Named.step (h : p.Named IsName) {part : String} (hpart : '/' ∉ part.toList) :
    (p.step part).Named IsName := by
  unfold Path.step
  split
  · exact h
  · next hdot =>
    split
    · exact h.dropLast
    · next hdots =>
      obtain ⟨hempty, hdot⟩ := not_or.mp hdot
      exact named_child.mpr ⟨h, hempty, hdot, hdots, hpart⟩

/-- Step by step a text leads from a path of names to another one. -/
theorem Named.walk (h : p.Named IsName) (text : String) : (p.walk text).Named IsName := by
  have hparts : ∀ part ∈ Text.splitOn text '/', '/' ∉ part.toList :=
    fun _ => Text.not_mem_of_mem_splitOn
  unfold Path.walk
  generalize Text.splitOn text '/' = parts at hparts
  induction parts generalizing p with
  | nil => exact h
  | cons part rest ih =>
    obtain ⟨hfirst, hrest⟩ := List.forall_mem_cons.mp hparts
    exact ih (h.step hfirst) hrest

/-- What is read in a working directory of names, for a user who has one, is a path of names. -/
theorem named_resolve (hcwd : cwd.Named IsName) (huser : IsName user) (text : String) :
    (resolve cwd user text).Named IsName := by
  have hhome := named_home huser
  unfold resolve
  split
  · exact hcwd
  · split
    · exact hhome
    · split
      · exact hhome.walk _
      · exact Named.walk (fun _ hn => absurd hn List.not_mem_nil) text
      · exact hcwd.walk text

theorem step_of_isName (h : IsName name) (p : Path) : p.step name = p.child name := by
  obtain ⟨hempty, hdot, hdots, -⟩ := h
  simp [step, hempty, hdot, hdots]

/-- Names are walked along one after the other. -/
theorem foldl_step_of_named {names : Path} (h : names.Named IsName) (p : Path) :
    names.foldl step p = p ++ names := by
  induction names generalizing p with
  | nil => simp
  | cons name rest ih =>
    obtain ⟨hname, hrest⟩ := List.forall_mem_cons.mp h
    rw [List.foldl_cons, step_of_isName hname, ih hrest, child, List.append_assoc]
    rfl

theorem toList_display (p : Path) :
    p.display.toList = '/' :: ['/'].intercalate (p.map String.toList) := by
  simp [display, String.toList_intercalate]

/-- Cut at its slashes, what is displayed gives an empty part and then the names. -/
theorem splitOn_display (h : p.Named IsName) (hne : p ≠ []) :
    Text.splitOn p.display '/' = "" :: p := by
  have hslash : ∀ piece ∈ "" :: p, '/' ∉ piece.toList :=
    List.forall_mem_cons.mpr ⟨by simp, fun name hn => (h name hn).2.2.2⟩
  have hdisplay : p.display = (String.singleton '/').intercalate ("" :: p) := by
    cases p with
    | nil => exact absurd rfl hne
    | cons name rest => rw [display, String.intercalate_cons_cons, String.empty_append]; rfl
  rw [hdisplay, Text.splitOn_intercalate hslash (List.cons_ne_nil _ _)]

/-- A path of names is read back from the way it is displayed, wherever and by whomever. -/
theorem resolve_display (h : p.Named IsName) (cwd : Path) (user : String) :
    resolve cwd user p.display = p := by
  have hblank : Text.isBlank p.display = false := by
    simp [Text.isBlank, toList_display, Chars.isBlank]
  have htilde : p.display ≠ "~" := by
    intro he
    have hchars := congrArg String.toList he
    simp [toList_display] at hchars
  have hwalk : resolve cwd user p.display = walk [] p.display := by
    simp only [resolve, hblank, htilde, Bool.false_eq_true, if_false, toList_display]
  rw [hwalk, walk]
  by_cases hne : p = []
  · subst hne
    rfl
  · rw [splitOn_display h hne, List.foldl_cons]
    exact foldl_step_of_named h []

theorem walk_of_isName (h : IsName name) (p : Path) : p.walk name = p.child name := by
  rw [walk, Text.splitOn_of_not_mem h.2.2.2, List.foldl_cons, List.foldl_nil, step_of_isName h]

/-- A name that begins with no tilde is read as that of an entry of the working directory. -/
theorem resolve_of_isName (h : IsName name) (hblank : Text.isBlank name = false)
    (htilde : name.toList.head? ≠ some '~') (cwd : Path) (user : String) :
    resolve cwd user name = cwd.child name := by
  have hhome : name ≠ "~" := by
    rintro rfl
    exact htilde rfl
  have hwalk : resolve cwd user name = walk cwd name := by
    simp only [resolve, hblank, hhome, Bool.false_eq_true, if_false]
    split
    · next hletters => exact absurd (by rw [hletters]; rfl) htilde
    · next hletters => exact absurd (by rw [hletters]; exact List.mem_cons_self) h.2.2.2
    · rfl
  rw [hwalk, walk_of_isName h]

end Path

end PocketUnix
