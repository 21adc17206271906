import Mathlib.Data.List.Basic
import Mathlib.Data.List.TakeWhile
import PocketUnix.Text.Basic

/-!
# The ends of texts

What is taken off the end of a text is the longest tail whose letters satisfy a condition. The first
separator of a text is the one in front of which there is none, and the last separator the one
behind which there is none.
-/

namespace PocketUnix.Chars

variable {p : Char → Bool} {front tail s : List Char}

theorem isBlank_of_isDigit {c : Char} (h : c.isDigit = true) : isBlank c = false := by
  have hlower : 48 ≤ c.toNat := Char.isDigit_iff_toNat.mp h |>.1
  have hupper : c.toNat ≤ 57 := Char.isDigit_iff_toNat.mp h |>.2
  simp [isBlank]
  omega

/-- A tail of such letters is dropped up to the last letter that is not one. -/
theorem dropEndWhile_append (htail : ∀ c ∈ tail, p c = true)
    (hfront : ∀ c ∈ front.getLast?, p c = false) : dropEndWhile p (front ++ tail) = front := by
  have hkept : front.reverse.dropWhile p = front.reverse := by
    cases hr : front.reverse with
    | nil => rfl
    | cons c cs =>
      have hlast : front.getLast? = some c := by rw [← List.head?_reverse, hr, List.head?_cons]
      have hc : p c = false := hfront c (by rw [hlast]; rfl)
      exact List.dropWhile_cons_of_neg (by simp [hc])
  have hgone : ∀ c ∈ tail.reverse, p c = true := fun c hc => htail c (List.mem_reverse.mp hc)
  rw [dropEndWhile, List.reverse_append, List.dropWhile_append_of_pos hgone, hkept,
    List.reverse_reverse]

theorem dropEndWhile_append_takeWhile (p : Char → Bool) (s : List Char) :
    dropEndWhile p s ++ (s.reverse.takeWhile p).reverse = s := by
  rw [dropEndWhile, ← List.reverse_append, List.takeWhile_append_dropWhile, List.reverse_reverse]

theorem dropEndWhile_prefix (p : Char → Bool) (s : List Char) : dropEndWhile p s <+: s :=
  ⟨_, dropEndWhile_append_takeWhile p s⟩

theorem not_of_getLast?_dropEndWhile {c : Char} (h : c ∈ (dropEndWhile p s).getLast?) :
    p c = false := by
  have hhead := List.head?_dropWhile_not p s.reverse
  rw [dropEndWhile, List.getLast?_reverse, Option.mem_def] at h
  rw [h] at hhead
  exact hhead

/-- Where blanks are all alike, a text that goes on with them behind its end is the same without
those at its end. -/
theorem getD_trimEnd {c : Char} (h : ∀ d ∈ s, isBlank d = true → d = c) (i : Nat) :
    (trimEnd s).getD i c = s.getD i c := by
  obtain ⟨count, hs⟩ : ∃ count, s = trimEnd s ++ List.replicate count c := by
    refine ⟨((s.reverse.takeWhile isBlank).reverse).length, ?_⟩
    have hsplit := dropEndWhile_append_takeWhile isBlank s
    have htail : (s.reverse.takeWhile isBlank).reverse =
        List.replicate ((s.reverse.takeWhile isBlank).reverse).length c := by
      refine List.eq_replicate_iff.mpr ⟨rfl, fun d hd => ?_⟩
      rw [List.mem_reverse] at hd
      exact h d (List.mem_reverse.mp (List.takeWhile_subset _ hd)) (List.mem_takeWhile_imp hd)
    rw [← htail]
    exact hsplit.symm
  conv_rhs => rw [hs]
  rw [List.getD_eq_getElem?_getD, List.getD_eq_getElem?_getD, List.getElem?_append]
  split
  · rfl
  · next hi =>
    rw [List.getElem?_eq_none (Nat.not_lt.mp hi), List.getElem?_replicate]
    split <;> rfl

/-- A run of letters is taken up to the end of it. -/
theorem takeWhile_run {run rest : List Char} (hrun : ∀ c ∈ run, p c = true)
    (hrest : ∀ c ∈ rest.head?, p c = false) : (run ++ rest).takeWhile p = run := by
  rw [List.takeWhile_append_of_pos hrun]
  cases rest with
  | nil => simp
  | cons c rest =>
    have hc : p c = false := hrest c rfl
    simp [hc]

theorem dropWhile_run {run rest : List Char} (hrun : ∀ c ∈ run, p c = true)
    (hrest : ∀ c ∈ rest.head?, p c = false) : (run ++ rest).dropWhile p = rest := by
  have hboth := List.takeWhile_append_dropWhile (p := p) (l := run ++ rest)
  rw [takeWhile_run hrun hrest] at hboth
  exact List.append_cancel_left hboth

/-- The text begins and ends with letters that are not blank. -/
def IsTrimmed (s : List Char) : Prop :=
  (∃ c ∈ s.head?, isBlank c = false) ∧ ∃ c ∈ s.getLast?, isBlank c = false

theorem IsTrimmed.ne_nil (h : IsTrimmed s) : s ≠ [] := by
  rintro rfl
  obtain ⟨⟨c, hc, -⟩, -⟩ := h
  cases hc

/-- Without the blanks around it, a text that says something begins and ends with what it says, as
what is taken off the end leaves the first letter. -/
theorem isTrimmed_trim (h : trim s ≠ []) : IsTrimmed (trim s) := by
  have hlast : isBlank ((trim s).getLast h) = false :=
    not_of_getLast?_dropEndWhile (List.getLast?_eq_some_getLast h)
  have hfront : trim s <+: trimStart s := dropEndWhile_prefix isBlank (trimStart s)
  have hhead : isBlank ((trim s).head h) = false := by
    rw [hfront.head h]
    exact List.head_dropWhile_not isBlank _
  exact ⟨⟨_, List.head?_eq_some_head h, hhead⟩, _, List.getLast?_eq_some_getLast h, hlast⟩

/-- A text without blanks around it is left as it is. -/
theorem IsTrimmed.trim_eq (h : IsTrimmed s) : trim s = s := by
  obtain ⟨⟨c, hc, hfirst⟩, d, hd, hlast⟩ := h
  have hstart : trimStart s = s := by
    rw [List.eq_cons_of_mem_head? hc]
    exact List.dropWhile_cons_of_neg (by simp [hfirst])
  have hend : dropEndWhile isBlank (s ++ []) = s :=
    dropEndWhile_append (by simp) fun x hx => by rwa [← Option.mem_unique hd hx]
  rw [trim, hstart, trimEnd, ← List.append_nil s, hend, List.append_nil]

theorem trim_cons {c : Char} (hc : isBlank c = true) (s : List Char) : trim (c :: s) = trim s := by
  rw [trim, trimStart, List.dropWhile_cons_of_pos hc, trim, trimStart]

/-- What begins like a text without blanks around it, and ends like one, has none around it. -/
theorem IsTrimmed.append {rest : List Char} (hs : IsTrimmed s) (hrest : IsTrimmed rest)
    (gap : List Char) : IsTrimmed (s ++ (gap ++ rest)) := by
  have hne := hrest.ne_nil
  obtain ⟨⟨c, hc, hfirst⟩, -⟩ := hs
  obtain ⟨-, d, hd, hlast⟩ := hrest
  refine ⟨⟨c, ?_, hfirst⟩, d, ?_, hlast⟩
  · rw [List.eq_cons_of_mem_head? hc]
    rfl
  · rw [← List.append_assoc, List.getLast?_append_of_ne_nil _ hne]
    exact hd

/-- Texts that have no blanks around them have none around them when they are put together. -/
theorem IsTrimmed.intercalate {sep : List Char} {parts : List (List Char)} (hne : parts ≠ [])
    (h : ∀ part ∈ parts, IsTrimmed part) : IsTrimmed (sep.intercalate parts) := by
  induction parts with
  | nil => exact absurd rfl hne
  | cons first others ih =>
    obtain ⟨hfirst, hothers⟩ := List.forall_mem_cons.mp h
    cases others with
    | nil => rwa [List.intercalate_singleton]
    | cons next others =>
      rw [List.intercalate_cons_cons, List.append_assoc]
      exact hfirst.append (ih (List.cons_ne_nil _ _) hothers) sep

theorem stripEnd?_append (s tail : List Char) : stripEnd? tail (s ++ tail) = some s :=
  List.isSuffixOf?_eq_some_iff_append_eq.mpr rfl

/-- The first separator is the one in front of which there is none. -/
theorem cutWhere?_append {a b : List Char} {c : Char} (hc : p c = true)
    (ha : ∀ x ∈ a, p x = false) : cutWhere? p (a ++ c :: b) = some (a, b) := by
  induction a with
  | nil => simp [cutWhere?, hc]
  | cons d a ih =>
    obtain ⟨hd, hrest⟩ := List.forall_mem_cons.mp ha
    simp [cutWhere?, hd, ih hrest]

theorem cutWhere?_eq_none (h : ∀ x ∈ s, p x = false) : cutWhere? p s = none := by
  induction s with
  | nil => rfl
  | cons c s ih =>
    obtain ⟨hc, hrest⟩ := List.forall_mem_cons.mp h
    simp [cutWhere?, hc, ih hrest]

/-- A text is cut nowhere else than at its first separator. -/
theorem cutWhere?_eq_some {a b : List Char} (h : cutWhere? p s = some (a, b)) :
    ∃ c, p c = true ∧ (∀ x ∈ a, p x = false) ∧ s = a ++ c :: b := by
  induction s generalizing a with
  | nil => cases h
  | cons d s ih =>
    rw [cutWhere?] at h
    split at h
    · next hd =>
      cases h
      exact ⟨d, hd, by simp, rfl⟩
    · next hd =>
      obtain ⟨⟨front, rest⟩, hcut, hpair⟩ := Option.map_eq_some_iff.mp h
      cases hpair
      obtain ⟨c, hc, hfront, rfl⟩ := ih hcut
      exact ⟨c, hc, List.forall_mem_cons.mpr ⟨by simpa using hd, hfront⟩, rfl⟩

/-- The last separator is the one behind which there is none. -/
theorem cutLast?_append {a b : List Char} {c : Char} (hc : p c = true)
    (hb : ∀ x ∈ b, p x = false) : cutLast? p (a ++ c :: b) = some (a, b) := by
  have hreverse : (a ++ c :: b).reverse = b.reverse ++ c :: a.reverse := by simp
  rw [cutLast?, hreverse, cutWhere?_append hc fun x hx => hb x (List.mem_reverse.mp hx)]
  simp

theorem cutLast?_eq_none (h : ∀ x ∈ s, p x = false) : cutLast? p s = none := by
  rw [cutLast?, cutWhere?_eq_none fun x hx => h x (List.mem_reverse.mp hx)]
  rfl

theorem beq_of_not_mem {c : Char} (h : c ∉ s) : ∀ x ∈ s, (x == c) = false := by
  intro x hx
  rw [beq_eq_false_iff_ne]
  rintro rfl
  exact h hx

/-- A text is cut at a letter that does not occur in front of it. -/
theorem cutWhere?_letter {c : Char} {a : List Char} (h : c ∉ a) (b : List Char) :
    cutWhere? (· == c) (a ++ c :: b) = some (a, b) :=
  cutWhere?_append (beq_self_eq_true c) (beq_of_not_mem h)

theorem cutLast?_letter {c : Char} {b : List Char} (h : c ∉ b) (a : List Char) :
    cutLast? (· == c) (a ++ c :: b) = some (a, b) :=
  cutLast?_append (beq_self_eq_true c) (beq_of_not_mem h)

theorem cutLast?_of_not_mem {c : Char} (h : c ∉ s) : cutLast? (· == c) s = none :=
  cutLast?_eq_none (beq_of_not_mem h)

/-- Where a letter occurs, one of its places is the last. -/
theorem exists_last_place {c : Char} (h : c ∈ s) :
    ∃ front name, s = front ++ c :: name ∧ c ∉ name := by
  obtain ⟨name, front, hs, hname⟩ := List.eq_append_cons_of_mem (List.mem_reverse.mpr h)
  refine ⟨front.reverse, name.reverse, ?_, by simpa using hname⟩
  rw [← List.reverse_reverse s, hs]
  simp

/-- What is dropped from the end of a text is one letter, over and over. -/
theorem exists_replicate_dropEndWhile (c : Char) (s : List Char) :
    ∃ count, s = dropEndWhile (· == c) s ++ List.replicate count c := by
  refine ⟨(s.reverse.takeWhile (· == c)).length, ?_⟩
  have hsame : (s.reverse.takeWhile (· == c)).reverse =
      List.replicate (s.reverse.takeWhile (· == c)).length c := by
    refine List.eq_replicate_iff.mpr ⟨List.length_reverse, fun d hd => ?_⟩
    simpa using List.mem_takeWhile_imp (List.mem_reverse.mp hd)
  rw [← hsame, dropEndWhile_append_takeWhile]

end PocketUnix.Chars
