import PocketUnix.Command.Run
import PocketUnix.Proofs.Sample
import PocketUnix.Proofs.Text.Ends
import PocketUnix.Proofs.Tree.WrittenPaths

/-!
# The two parts of a written path

`dirname` and `basename` cut a written path at its last slash that has a name behind it. Both drop
slashes where they cut. As slashes in a row are read like one, and those at the end like none, the
two parts with a slash between them still lead to the same place.
-/

namespace PocketUnix

namespace Path

theorem walk_slashes_name (p : Path) (count : Nat) (name : List Char) :
    p.walk (.ofList (List.replicate count '/' ++ name)) = p.walk (.ofList name) := by
  induction count with
  | zero => rfl
  | succ count ih =>
    rw [List.replicate_succ, List.cons_append, ← List.nil_append ('/' :: _), walk_append, walk_nil,
      ih]

theorem walk_name_slashes (p : Path) (name : List Char) (count : Nat) :
    p.walk (.ofList (name ++ List.replicate count '/')) = p.walk (.ofList name) := by
  cases count with
  | zero => rw [List.replicate_zero, List.append_nil]
  | succ count => rw [List.replicate_succ, walk_append, walk_slashes]

/-- Whatever stands in front of a slash, even if it is nothing or blank, what stands behind it is
read from one place on. -/
theorem exists_place (cwd : Path) (user : String) (front : List Char) :
    ∃ p : Path, ∀ rest,
      resolve cwd user (.ofList (front ++ '/' :: rest)) = p.walk (.ofList rest) := by
  cases hblank : Text.isBlank (.ofList front) with
  | false => exact ⟨_, resolve_append hblank⟩
  | true =>
    cases front with
    | nil =>
      refine ⟨[], fun rest => ?_⟩
      rw [List.nil_append, resolve_root, ← List.nil_append ('/' :: rest), walk_append, walk_nil]
    | cons c front =>
      have hc : Chars.isBlank c = true := by
        simp only [Text.isBlank, String.toList_ofList, List.all_cons, Bool.and_eq_true] at hblank
        exact hblank.1
      refine ⟨cwd.walk (.ofList (c :: front)), fun rest => ?_⟩
      rw [← walk_append]
      refine resolve_eq_walk ?_ ?_ (fun more he => ?_) fun more he => ?_
      · simp [Text.isBlank, Chars.isBlank]
      · simp
      · obtain rfl := (List.cons.inj he).1
        exact absurd hc (by decide)
      · obtain rfl := (List.cons.inj he).1
        exact absurd hc (by decide)

/-- Between a front and a name a row of slashes is read like one, and behind the name like none. -/
theorem resolve_between_slashes (cwd : Path) (user : String) (front name : List Char)
    (between behind : Nat) :
    resolve cwd user (.ofList (front ++ '/' ::
      (List.replicate between '/' ++ (name ++ List.replicate behind '/')))) =
        resolve cwd user (.ofList (front ++ '/' :: name)) := by
  obtain ⟨p, hp⟩ := exists_place cwd user front
  rw [hp, hp, walk_slashes_name, walk_name_slashes]

end Path

namespace PathNames

variable {letters front name : List Char} {between behind : Nat}

/-- The letters of a path: slashes alone, a name, or a name with something in front of it. Slashes
may stand behind the name and in a row in front of it. -/
inductive Shape : List Char → Prop
  | root (count : Nat) : Shape (List.replicate (count + 1) '/')
  | plain {name : List Char} (hne : name ≠ []) (hname : '/' ∉ name) (behind : Nat) :
    Shape (name ++ List.replicate behind '/')
  | within {front name : List Char} (hfront : '/' ∉ front.getLast?) (between : Nat)
    (hne : name ≠ []) (hname : '/' ∉ name) (behind : Nat) :
    Shape (front ++ '/' :: (List.replicate between '/' ++ (name ++ List.replicate behind '/')))

theorem slash_not_mem_getLast?_dropEndWhile (s : List Char) :
    '/' ∉ (Chars.dropEndWhile (· == '/') s).getLast? :=
  fun h => absurd (Chars.not_of_getLast?_dropEndWhile h) (by decide)

/-- Every path that is not empty has one of these shapes: it is read from its end. -/
theorem shape_of_ne_nil (h : letters ≠ []) : Shape letters := by
  obtain ⟨behind, hletters⟩ := Chars.exists_replicate_dropEndWhile '/' letters
  have hlast := slash_not_mem_getLast?_dropEndWhile letters
  generalize Chars.dropEndWhile (· == '/') letters = trimmed at hletters hlast
  by_cases hslash : '/' ∈ trimmed
  · obtain ⟨before, name, rfl, hname⟩ := Chars.exists_last_place hslash
    have hne : name ≠ [] := by
      rintro rfl
      simp at hlast
    obtain ⟨between, hbefore⟩ := Chars.exists_replicate_dropEndWhile '/' before
    have hfront := slash_not_mem_getLast?_dropEndWhile before
    have hshape := Shape.within hfront between hne hname behind
    have hsame : Chars.dropEndWhile (· == '/') before ++
        '/' :: (List.replicate between '/' ++ (name ++ List.replicate behind '/')) = letters := by
      rw [hletters, ← List.cons_append, ← List.replicate_succ, List.replicate_succ',
        List.append_assoc, ← List.append_assoc, ← hbefore]
      simp
    rwa [hsame] at hshape
  · rw [hletters]
    by_cases hne : trimmed = []
    · subst hne
      cases behind with
      | zero => exact absurd hletters h
      | succ count => exact .root count
    · exact .plain hne hslash behind

theorem dropEnd_slashes (hfront : '/' ∉ front.getLast?) (count : Nat) :
    Text.dropEnd '/' (.ofList (front ++ List.replicate count '/')) = .ofList front := by
  have hdrop : Chars.dropEndWhile (· == '/') (front ++ List.replicate count '/') = front := by
    refine Chars.dropEndWhile_append (fun c hc => ?_) fun c hc => ?_
    · simpa using (List.mem_replicate.mp hc).2
    · simpa using fun he : c = '/' => hfront (he ▸ hc)
  rw [Text.dropEnd, String.toList_ofList, hdrop]

theorem slash_not_mem_getLast? (hne : name ≠ []) (hname : '/' ∉ name) (front : List Char) :
    '/' ∉ (front ++ name).getLast? := by
  rw [List.getLast?_append_of_ne_nil _ hne]
  exact fun h => hname (List.mem_of_mem_getLast? h)

/-- Slashes alone are the root, for both parts. -/
theorem parts_root (count : Nat) :
    dirName (.ofList (List.replicate (count + 1) '/')) = "/" ∧
      baseName (.ofList (List.replicate (count + 1) '/')) none = "/" := by
  have hnone : '/' ∉ ([] : List Char).getLast? := by simp
  have hdrop : Text.dropEnd '/' (.ofList (List.replicate (count + 1) '/')) = "" :=
    dropEnd_slashes hnone (count + 1)
  have hcut : Text.cutLast? (· == '/') "" = none := rfl
  have hstart : Text.startsWith (.ofList (List.replicate (count + 1) '/')) "/" = true := by
    simp [Text.startsWith, List.replicate_succ]
  have hne : String.ofList (List.replicate (count + 1) '/') ≠ "" := by
    simp [List.replicate_succ]
  rw [dirName, baseName, hdrop, hcut]
  exact ⟨if_pos hstart, if_neg hne⟩

/-- A name alone is in the working directory, and slashes behind it are dropped. -/
theorem parts_plain (hne : name ≠ []) (hname : '/' ∉ name) (behind : Nat) :
    dirName (.ofList (name ++ List.replicate behind '/')) = "." ∧
      baseName (.ofList (name ++ List.replicate behind '/')) none = .ofList name := by
  have hdrop := dropEnd_slashes (slash_not_mem_getLast? hne hname []) behind
  rw [List.nil_append] at hdrop
  have hcut : Text.cutLast? (· == '/') (.ofList name) = none := by
    rw [Text.cutLast?, String.toList_ofList, Chars.cutLast?_of_not_mem hname]
    rfl
  have hstart : Text.startsWith (.ofList (name ++ List.replicate behind '/')) "/" = false := by
    obtain ⟨c, cs, rfl⟩ := List.exists_cons_of_ne_nil hne
    have hc : '/' ≠ c := fun he => hname (he ▸ List.mem_cons_self)
    rw [Text.startsWith, String.toList_ofList]
    simp [List.isPrefixOf, hc]
  constructor
  · rw [dirName, hdrop, hcut]
    exact if_neg (by rw [hstart]; decide)
  · rw [baseName, hdrop]
    dsimp only
    rw [if_neg (by simpa using hne), lastName, hcut]

/-- A name with something in front: the front without the slashes at its end, or a slash if there is
nothing else. -/
theorem parts_within (hfront : '/' ∉ front.getLast?) (hne : name ≠ []) (hname : '/' ∉ name)
    (between behind : Nat) :
    let path : String := .ofList
      (front ++ '/' :: (List.replicate between '/' ++ (name ++ List.replicate behind '/')))
    dirName path = (if front = [] then "/" else .ofList front) ∧
      baseName path none = .ofList name := by
  intro path
  have hpath : path = .ofList
      ((front ++ List.replicate between '/') ++ '/' :: name ++ List.replicate behind '/') := by
    have hturn : '/' :: (List.replicate between '/' ++ (name ++ List.replicate behind '/')) =
        List.replicate between '/' ++ '/' :: (name ++ List.replicate behind '/') := by
      rw [← List.cons_append, ← List.replicate_succ, List.replicate_succ', List.append_assoc,
        List.singleton_append]
    simp only [path, hturn, List.append_assoc, List.cons_append]
  have hlast : '/' ∉ ((front ++ List.replicate between '/') ++ '/' :: name).getLast? := by
    rw [← List.singleton_append, ← List.append_assoc]
    exact slash_not_mem_getLast? hne hname _
  have hdrop := dropEnd_slashes hlast behind
  rw [← hpath] at hdrop
  have hcut : Text.cutLast? (· == '/')
      (.ofList ((front ++ List.replicate between '/') ++ '/' :: name)) =
        some (.ofList (front ++ List.replicate between '/'), .ofList name) := by
    rw [Text.cutLast?, String.toList_ofList, Chars.cutLast?_letter hname]
    rfl
  have hkept : String.ofList ((front ++ List.replicate between '/') ++ '/' :: name) ≠ "" := by simp
  constructor
  · rw [dirName, hdrop, hcut]
    dsimp only
    rw [dropEnd_slashes hfront]
    simp only [String.ofList_eq_empty_iff]
  · rw [baseName, hdrop]
    dsimp only
    rw [if_neg hkept, lastName, hcut]

theorem ofList_slash_ofList (front name : List Char) :
    String.ofList front ++ "/" ++ String.ofList name = .ofList (front ++ '/' :: name) := by
  simp [← String.toList_inj]

theorem resolve_replicate (cwd : Path) (user : String) (count : Nat) :
    Path.resolve cwd user (.ofList (List.replicate (count + 1) '/')) = [] := by
  rw [List.replicate_succ, Path.resolve_root, ← List.replicate_succ, Path.walk_slashes]

/-- A name alone is read from the working directory on, with a dot in front of it and without. -/
theorem resolve_plain (hne : name ≠ []) (hname : '/' ∉ name)
    (hblank : Text.isBlank (.ofList (name ++ List.replicate behind '/')) = false)
    (htilde : name ≠ ['~']) (cwd : Path) (user : String) :
    Path.resolve cwd user (.ofList (['.'] ++ '/' :: name)) =
      Path.resolve cwd user (.ofList (name ++ List.replicate behind '/')) := by
  have hdot : Path.resolve cwd user (.ofList ['.']) = cwd := by
    rw [Path.resolve_eq_walk (by decide) (by decide) (by simp) (by simp)]
    rfl
  have hhere : Path.resolve cwd user (.ofList (name ++ List.replicate behind '/')) =
      Path.walk cwd (.ofList (name ++ List.replicate behind '/')) := by
    obtain ⟨c, cs, rfl⟩ := List.exists_cons_of_ne_nil hne
    refine Path.resolve_eq_walk hblank (fun he => ?_) (fun rest he => ?_) fun rest he => ?_
    · obtain ⟨rfl, hcs⟩ := List.cons.inj he
      exact htilde (by rw [(List.append_eq_nil_iff.mp hcs).1])
    · obtain ⟨rfl, hcs⟩ := List.cons.inj he
      cases cs with
      | nil => exact htilde rfl
      | cons d ds =>
        obtain rfl : d = '/' := (List.cons.inj hcs).1
        simp at hname
    · obtain rfl : c = '/' := (List.cons.inj he).1
      simp at hname
  rw [Path.resolve_append (by decide), hdot, hhere, Path.walk_name_slashes]

/-- By the shape of the path: whatever slashes are dropped, the two parts lead to where it leads. -/
theorem resolve_parts {path : String} (hblank : Text.isBlank path = false)
    (htilde : Text.dropEnd '/' path ≠ "~") (cwd : Path) (user : String) :
    Path.resolve cwd user (dirName path ++ "/" ++ baseName path none) =
      Path.resolve cwd user path := by
  have hshape : Shape path.toList := by
    refine shape_of_ne_nil ?_
    rintro he
    rw [String.toList_eq_nil_iff.mp he] at hblank
    cases hblank
  rw [← String.ofList_toList (s := path)] at hblank htilde ⊢
  generalize path.toList = letters at hshape hblank htilde
  cases hshape with
  | root count =>
    obtain ⟨hdir, hbase⟩ := parts_root count
    rw [hdir, hbase, resolve_replicate]
    exact resolve_replicate cwd user 2
  | @plain name hne hname behind =>
    obtain ⟨hdir, hbase⟩ := parts_plain hne hname behind
    have hlast := slash_not_mem_getLast? hne hname []
    rw [List.nil_append] at hlast
    rw [dropEnd_slashes hlast] at htilde
    have hplain := resolve_plain hne hname hblank (by rintro rfl; exact htilde rfl) cwd user
    rw [hdir, hbase, ← hplain, ← ofList_slash_ofList]
  | @within front name hfront between hne hname behind =>
    obtain ⟨hdir, hbase⟩ := parts_within hfront hne hname between behind
    rw [hdir, hbase, Path.resolve_between_slashes]
    split
    · next hempty =>
      rw [hempty, ← Path.resolve_between_slashes cwd user [] name 1 0]
      exact congrArg (Path.resolve cwd user) (by simp [← String.toList_inj])
    · rw [ofList_slash_ofList]

/-- For every path that is not blank and not a tilde, with or without slashes behind it, what
`dirname` prints, a slash and what `basename` prints lead to the same place as the path, whatever
the working directory and whoever the user. -/
theorem printed_parts {path : String} (hblank : Text.isBlank path = false)
    (htilde : Text.dropEnd '/' path ≠ "~") :
    ∃ front name,
      (∀ x m, (Command.run x ["dirname", path] m).answer = .ok (.output front) ∧
        (Command.run x ["basename", path] m).answer = .ok (.output name)) ∧
      ∀ cwd user, Path.resolve cwd user (front ++ "/" ++ name) = Path.resolve cwd user path :=
  ⟨dirName path, baseName path none, fun _ _ => ⟨rfl, rfl⟩, resolve_parts hblank htilde⟩

/-- A blank part in front, and slashes in a row at both cuts. -/
theorem printed_parts_blank :
    ∃ front name,
      (∀ x m, (Command.run x ["dirname", " //~//"] m).answer = .ok (.output front) ∧
        (Command.run x ["basename", " //~//"] m).answer = .ok (.output name)) ∧
      ∀ cwd user, Path.resolve cwd user (front ++ "/" ++ name) = Path.resolve cwd user " //~//" :=
  printed_parts (by decide +kernel) (by decide +kernel)

end PathNames

end PocketUnix
