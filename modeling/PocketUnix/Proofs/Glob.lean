import Mathlib.Data.List.Forall2
import PocketUnix.Glob

/-!
# The language of a pattern

A pattern accepts exactly the names of its language. Only the last star of a pattern has to be
remembered: the letters in front of it are matched as early in the name as they can be, and whatever
a later place would leave to the star, the star can take from there as well.
-/

namespace PocketUnix.Glob

/-- The names that a pattern stands for, letter by letter from the start to the end. -/
inductive Matches : List Char → List Char → Prop
  | nil : Matches [] []
  | star {ps rest : List Char} (taken : List Char) (h : Matches ps rest) :
    Matches ('*' :: ps) (taken ++ rest)
  | any {ps cs : List Char} (c : Char) (h : Matches ps cs) : Matches ('?' :: ps) (c :: cs)
  | letter {c : Char} {ps cs : List Char} (hstar : c ≠ '*') (hmark : c ≠ '?')
    (h : Matches ps cs) : Matches (c :: ps) (c :: cs)

/-- Letters and marks, each with the character of the name that it stands for. -/
def Placed (front taken : List Char) : Prop :=
  List.Forall₂ (fun p c => p ≠ '*' ∧ fits p c = true) front taken

variable {p c : Char} {ps cs front taken behind left name t r : List Char}

theorem matches_nil : Matches [] t ↔ t = [] := by
  constructor
  · rintro ⟨⟩
    rfl
  · rintro rfl
    exact .nil

/-- A letter or a mark takes one character of the name. -/
theorem matches_cons (hp : p ≠ '*') :
    Matches (p :: ps) t ↔ ∃ c cs, t = c :: cs ∧ fits p c = true ∧ Matches ps cs := by
  constructor
  · rintro (_ | _ | ⟨c, h⟩ | ⟨-, -, h⟩)
    · exact absurd rfl hp
    · exact ⟨c, _, rfl, by simp [fits], h⟩
    · exact ⟨p, _, rfl, by simp [fits], h⟩
  · rintro ⟨c, cs, rfl, hc, h⟩
    by_cases hmark : p = '?'
    · subst hmark
      exact .any c h
    · obtain rfl : p = c := by simpa [fits, hmark] using hc
      exact .letter hp hmark h

theorem matches_cons_cons (hp : p ≠ '*') :
    Matches (p :: ps) (c :: cs) ↔ fits p c = true ∧ Matches ps cs := by
  rw [matches_cons hp]
  constructor
  · rintro ⟨c, cs, ⟨⟩, h⟩
    exact h
  · exact fun h => ⟨c, cs, rfl, h⟩

/-- A star leaves any end of the text to the pattern behind it. -/
theorem matches_star : Matches ('*' :: ps) t ↔ ∃ r, r <:+ t ∧ Matches ps r := by
  constructor
  · rintro (_ | ⟨taken, h⟩ | _ | ⟨hstar, -, -⟩)
    · exact ⟨_, ⟨taken, rfl⟩, h⟩
    · exact absurd rfl hstar
  · rintro ⟨r, ⟨taken, rfl⟩, h⟩
    exact .star taken h

theorem matches_star_of_suffix (h : Matches ('*' :: ps) r) (hr : r <:+ t) :
    Matches ('*' :: ps) t := by
  obtain ⟨s, hs, h⟩ := matches_star.mp h
  exact matches_star.mpr ⟨s, hs.trans hr, h⟩

/-- A star takes nothing, or one character more than it would of the rest. -/
theorem matches_star_cons :
    Matches ('*' :: ps) (c :: cs) ↔ Matches ps (c :: cs) ∨ Matches ('*' :: ps) cs := by
  simp only [matches_star, List.suffix_cons_iff, or_and_right, exists_or, exists_eq_left]

/-- Of the empty name only stars are left over. -/
theorem matches_empty : Matches ps [] ↔ ps.all (· == '*') = true := by
  induction ps with
  | nil => simp [matches_nil]
  | cons p ps ih =>
    by_cases hp : p = '*'
    · subst hp
      simp [matches_star, ih]
    · simp [matches_cons hp, hp]

theorem Placed.matches_append (h : Placed front taken) :
    Matches (front ++ ps) (taken ++ t) ↔ Matches ps t := by
  induction h with
  | nil => rfl
  | cons hpc _ ih => rw [List.cons_append, List.cons_append, matches_cons_cons hpc.1, ih,
      and_iff_right hpc.2]

/-- Where the letters behind a star fit, they stand for the first characters of what is left. -/
theorem Placed.exists_placed (h : Placed front taken) (hm : Matches (front ++ ps) t) :
    ∃ found rest, t = found ++ rest ∧ Placed front found ∧ Matches ps rest := by
  induction h generalizing t with
  | nil => exact ⟨[], t, rfl, .nil, hm⟩
  | cons hpc _ ih =>
    obtain ⟨c, cs, rfl, hc, hm⟩ := (matches_cons hpc.1).mp hm
    obtain ⟨found, rest, rfl, hfound, hrest⟩ := ih hm
    exact ⟨c :: found, rest, rfl, .cons ⟨hpc.1, hc⟩ hfound, hrest⟩

/-- Wherever a star puts the letters behind it, no more of the name is left than if it takes
nothing. -/
theorem Placed.exists_suffix (h : Placed front taken)
    (hm : Matches ('*' :: (front ++ ps)) (taken ++ name)) : ∃ r, r <:+ name ∧ Matches ps r := by
  obtain ⟨t, ht, hm⟩ := matches_star.mp hm
  obtain ⟨found, rest, rfl, hfound, hrest⟩ := h.exists_placed hm
  refine ⟨rest, ?_, hrest⟩
  have hwhole : rest <:+ taken ++ name := (List.suffix_append found rest).trans ht
  have hlength : found.length = taken.length := hfound.length_eq.symm.trans h.length_eq
  have hle : rest.length ≤ name.length := by
    have := ht.length_le
    simp only [List.length_append] at this
    omega
  exact List.suffix_of_suffix_length_le hwhole (List.suffix_append taken name) hle

/-- An earlier star is of no use once a later one has been reached. -/
theorem Placed.matches_later (h : Placed front taken) :
    Matches ('*' :: (front ++ '*' :: ps)) (taken ++ name) ↔ Matches ('*' :: ps) name := by
  constructor
  · intro hm
    obtain ⟨r, hr, hm⟩ := h.exists_suffix hm
    exact matches_star_of_suffix hm hr
  · intro hm
    exact matches_star.mpr ⟨_, List.suffix_rfl, h.matches_append.mpr hm⟩

/-- At the end of the name only stars may be left over. -/
theorem Placed.matches_end (h : Placed front taken) :
    Matches ('*' :: (front ++ ps)) taken ↔ ps.all (· == '*') = true := by
  rw [← matches_empty]
  constructor
  · intro hm
    rw [← List.append_nil taken] at hm
    obtain ⟨r, hr, hm⟩ := h.exists_suffix hm
    rwa [List.suffix_nil.mp hr] at hm
  · intro hm
    refine matches_star.mpr ⟨taken, List.suffix_rfl, ?_⟩
    rw [← List.append_nil taken]
    exact h.matches_append.mpr hm

/-- Where the pattern does not fit behind its star, the star takes one character more. -/
theorem Placed.matches_tail (h : Placed front taken) (hm : ¬Matches ps (c :: cs)) :
    Matches ('*' :: (front ++ ps)) (taken ++ c :: cs) ↔
      Matches ('*' :: (front ++ ps)) (taken ++ c :: cs).tail := by
  have hfront : ¬Matches (front ++ ps) (taken ++ c :: cs) := mt h.matches_append.mp hm
  obtain ⟨d, ds, hd⟩ : ∃ d ds, taken ++ c :: cs = d :: ds :=
    List.exists_cons_of_ne_nil (by simp)
  rw [hd] at hfront ⊢
  rw [matches_star_cons, or_iff_right hfront, List.tail_cons]

/-- Behind a star the letters that have been read are those of the pattern in front of what is still
to be read. -/
theorem scanBehind_iff {pattern : List Char} (hp : pattern.length ≤ behind.length)
    (hn : name.length ≤ left.length) (h : Placed front taken) (hb : behind = front ++ pattern)
    (hl : left = taken ++ name) :
    scanBehind behind left pattern name hp hn = true ↔ Matches ('*' :: behind) left := by
  fun_induction scanBehind behind left pattern name hp hn generalizing front taken with
  | case1 behind left pattern =>
    rw [hb, hl, List.append_nil, h.matches_end]
  | case2 behind left c cs ps _ _ _ _ ih =>
    rw [ih .nil rfl rfl, hb, hl, h.matches_later]
  | case3 behind left c cs p ps _ _ hstar hfits _ _ ih =>
    have hplaced : Placed (front ++ [p]) (taken ++ [c]) :=
      List.rel_append h (.cons ⟨hstar, hfits⟩ .nil)
    exact ih hplaced (by simp [hb]) (by simp [hl])
  | case4 behind left c cs p ps _ _ hstar hfits _ _ ih =>
    have hm : ¬Matches (p :: ps) (c :: cs) := fun hm =>
      hfits ((matches_cons_cons hstar).mp hm).1
    rw [ih .nil rfl rfl, hb, hl, h.matches_tail hm]
  | case5 behind left c cs _ _ _ _ ih =>
    have hm : ¬Matches [] (c :: cs) := by simp [matches_nil]
    rw [ih .nil rfl rfl, hb, hl, h.matches_tail hm]

/-- The pattern is read from its start, where no star has been passed yet. -/
theorem scan_iff (pattern name : List Char) : scan pattern name = true ↔ Matches pattern name := by
  fun_induction scan pattern name with
  | case1 pattern => exact matches_empty.symm
  | case2 c cs => simp [matches_nil]
  | case3 c cs ps => exact scanBehind_iff _ _ .nil rfl rfl
  | case4 p ps c cs hstar ih => rw [Bool.and_eq_true, ih, matches_cons_cons hstar]

/-- Reading ends on every name, and the pattern accepts it just if the whole name belongs to its
language. -/
theorem accepts_iff (pattern name : String) :
    accepts pattern name = true ↔ Matches pattern.toList name.toList :=
  scan_iff pattern.toList name.toList

end PocketUnix.Glob
