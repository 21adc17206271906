import PocketUnix.Proofs.Filter.NormalFormat

/-!
# Patching

What the printed changes say of the two lists: the numbers in a header are those of the blocks
behind it, and the changes, taken in their order, make the right list of the left one.
-/

namespace PocketUnix.Filter

variable {a b : List String} {hs : List Hunk} {left right : Nat}

namespace NormalFormat

/-- The block is made up of the lines with these numbers. -/
def Range.Names (r : Range) (lines block : List String) : Prop :=
  1 ≤ r.first ∧ r.first ≤ r.last ∧ r.last ≤ lines.length ∧
    block = (lines.take r.last).drop (r.first - 1)

/-- The range is the number of the line, or zero, behind which the other side has more lines. -/
def Range.Follows (r : Range) (lines block : List String) : Prop :=
  r.first = r.last ∧ r.last ≤ lines.length ∧ block = []

/-- The header says where the blocks stand. -/
def Change.Fits (c : Change) (a b : List String) : Prop :=
  match c.kind with
  | .append => c.left.Follows a c.deleted ∧ c.right.Names b c.inserted
  | .change => c.left.Names a c.deleted ∧ c.right.Names b c.inserted
  | .delete => c.left.Names a c.deleted ∧ c.right.Follows b c.inserted

/-- How many left lines are in front of the change. -/
def Change.leftBefore (c : Change) : Nat :=
  match c.kind with
  | .append => c.left.last
  | .change | .delete => c.left.first - 1

/-- How many right lines are in front of the change. -/
def Change.rightBefore (c : Change) : Nat :=
  match c.kind with
  | .append | .change => c.right.first - 1
  | .delete => c.right.last

/-- The changes applied behind so many lines of both sides. It fails where the lines to be deleted
are not the ones that stand there, or where a number is not the one of its place. -/
def patchFrom? (left right : Nat) (lines : List String) : List Change → Option (List String)
  | [] => some lines
  | c :: cs =>
    let front := lines.take (c.leftBefore - left)
    let behind := lines.drop (c.leftBefore - left)
    if c.leftBefore = left + front.length ∧ c.rightBefore = right + front.length ∧
        c.deleted <+: behind then
      (patchFrom? (c.leftBefore + c.deleted.length) (c.rightBefore + c.inserted.length)
        (behind.drop c.deleted.length) cs).map (front ++ c.inserted ++ ·)
    else none

def patch? (lines : List String) (changes : List Change) : Option (List String) :=
  patchFrom? 0 0 lines changes

end NormalFormat

open NormalFormat

/-- The block is part of the lines, behind so many of them. -/
def StandsAt (before : Nat) (block lines : List String) : Prop :=
  ∃ front behind, lines = front ++ block ++ behind ∧ front.length = before

/-- The numbers of a block that stands there count on from the lines in front of it. -/
theorem StandsAt.names {before : Nat} {block lines : List String}
    (h : StandsAt before block lines) (hne : block ≠ []) :
    (rangeOf before block).Names lines block := by
  obtain ⟨front, behind, rfl, rfl⟩ := h
  have hlength : 1 ≤ block.length := List.length_pos_iff.mpr hne
  have hblock : block = ((front ++ block ++ behind).take (front.length + block.length)).drop
      front.length := by
    rw [← List.length_append, List.take_left, List.drop_left]
  have hend : front.length + block.length ≤ (front ++ block ++ behind).length := by
    simp only [List.length_append]
    omega
  simp only [rangeOf, List.isEmpty_iff, hne, if_false]
  exact ⟨Nat.le_add_left 1 _, Nat.add_le_add_left hlength _, hend, hblock⟩

theorem StandsAt.follows {before : Nat} {lines : List String} (h : StandsAt before [] lines) :
    (rangeOf before []).Follows lines [] := by
  obtain ⟨front, behind, rfl, rfl⟩ := h
  refine ⟨rfl, ?_, rfl⟩
  simp only [rangeOf, List.isEmpty_nil, if_true, List.length_append]
  omega

/-- What is read for a hunk says where its blocks stand, also for the side that has no lines. -/
theorem Hunk.fits_change {h : Hunk} (hproper : h.Proper) (hleft : StandsAt h.leftBefore h.deleted a)
    (hright : StandsAt h.rightBefore h.inserted b) : h.change.Fits a b := by
  obtain ⟨leftBefore, rightBefore, deleted, inserted⟩ := h
  cases deleted with
  | nil =>
    have hinserted : inserted ≠ [] := hproper.resolve_left fun hne => hne rfl
    exact ⟨hleft.follows, hright.names hinserted⟩
  | cons x deleted =>
    have hdeleted := hleft.names (List.cons_ne_nil x deleted)
    cases inserted with
    | nil => exact ⟨hdeleted, hright.follows⟩
    | cons y inserted => exact ⟨hdeleted, hright.names (List.cons_ne_nil y inserted)⟩

/-- In front of both sides stand the lines that have been passed. -/
theorem Patches.standsAt (leftFront rightFront : List String) (h : Patches left right a b hs)
    (hl : leftFront.length = left) (hr : rightFront.length = right) :
    ∀ hunk ∈ hs, StandsAt hunk.leftBefore hunk.deleted (leftFront ++ a) ∧
      StandsAt hunk.rightBefore hunk.inserted (rightFront ++ b) := by
  induction h generalizing leftFront rightFront with
  | kept => exact fun _ hmem => absurd hmem List.not_mem_nil
  | @hunk left right a b hs front hunk hleft hright _ _ ih =>
    intro other hmem
    rcases List.mem_cons.mp hmem with rfl | hmem
    · constructor
      · exact ⟨leftFront ++ front, a, by simp, by simp [hl, hleft]⟩
      · exact ⟨rightFront ++ front, b, by simp, by simp [hr, hright]⟩
    · have hrest := ih (leftFront ++ front ++ hunk.deleted) (rightFront ++ front ++ hunk.inserted)
        (by simp [hl, hleft, Nat.add_assoc]) (by simp [hr, hright, Nat.add_assoc]) other hmem
      simpa using hrest

theorem Patches.proper (h : Patches left right a b hs) : ∀ hunk ∈ hs, hunk.Proper := by
  induction h with
  | kept => exact fun _ hmem => absurd hmem List.not_mem_nil
  | hunk _ _ _ _ hproper _ ih => exact List.forall_mem_cons.mpr ⟨hproper, ih⟩

theorem Hunk.leftBefore_change (h : Hunk) : h.change.leftBefore = h.leftBefore := by
  obtain ⟨leftBefore, rightBefore, deleted, inserted⟩ := h
  cases deleted <;> cases inserted <;> rfl

/-- How many lines are in front of a hunk is known from its header, whatever its kind. -/
theorem Hunk.rightBefore_change {h : Hunk} (hproper : h.Proper) :
    h.change.rightBefore = h.rightBefore := by
  obtain ⟨leftBefore, rightBefore, deleted, inserted⟩ := h
  cases deleted with
  | nil =>
    cases inserted with
    | nil => cases hproper <;> contradiction
    | cons => rfl
  | cons => cases inserted <;> rfl

/-- The changes of hunks make the right list of the left one. The lines that are kept in front of
each are passed on both sides. -/
theorem Patches.patchFrom?_map (h : Patches left right a b hs) :
    patchFrom? left right a (hs.map Hunk.change) = some b := by
  induction h with
  | kept => rfl
  | @hunk left right a b hs front hunk hleft hright hproper _ ih =>
    have hfront : hunk.change.leftBefore - left = front.length := by
      rw [Hunk.leftBefore_change, hleft, Nat.add_sub_cancel_left]
    have htake : (front ++ hunk.deleted ++ a).take front.length = front := by
      rw [List.append_assoc, List.take_left]
    have hdrop : (front ++ hunk.deleted ++ a).drop front.length = hunk.deleted ++ a := by
      rw [List.append_assoc, List.drop_left]
    have hplace : hunk.change.leftBefore = left + front.length ∧
        hunk.change.rightBefore = right + front.length ∧
        hunk.change.deleted <+: hunk.deleted ++ a :=
      ⟨by rw [Hunk.leftBefore_change, hleft], by rw [Hunk.rightBefore_change hproper, hright],
        List.prefix_append _ _⟩
    rw [List.map_cons, patchFrom?, hfront, htake, hdrop, if_pos hplace]
    have hbehind : (hunk.deleted ++ a).drop hunk.change.deleted.length = a := List.drop_left
    have hrest :
        patchFrom? (hunk.change.leftBefore + hunk.change.deleted.length)
          (hunk.change.rightBefore + hunk.change.inserted.length) a (hs.map Hunk.change) =
            some b := by
      rw [Hunk.leftBefore_change, Hunk.rightBefore_change hproper]
      exact ih
    rw [hbehind, hrest]
    rfl

theorem StandsAt.plain {before : Nat} {block lines : List String} (h : StandsAt before block lines)
    (hplain : Plain lines) : Plain block := by
  obtain ⟨front, behind, rfl, -⟩ := h
  intro line hline
  exact hplain line (by simp [hline])

theorem hunks_standsAt {hunk : Hunk} (hmem : hunk ∈ hunks a b) :
    hunk.Proper ∧ StandsAt hunk.leftBefore hunk.deleted a ∧
      StandsAt hunk.rightBefore hunk.inserted b :=
  ⟨(patches_hunks a b).proper hunk hmem,
    (patches_hunks a b).standsAt [] [] rfl rfl hunk hmem⟩

theorem hunks_readable (ha : Plain a) (hb : Plain b) : ∀ hunk ∈ hunks a b, hunk.Readable := by
  intro hunk hmem
  obtain ⟨hproper, hleft, hright⟩ := hunks_standsAt hmem
  exact ⟨hproper, hleft.plain ha, hright.plain hb⟩

theorem diff_self (a : List String) : diff a a = "" := by
  rw [diff, hunks, editScript_self, hunksFrom_keepAll]
  rfl

/-- What is printed for two lists of lines is a text in the normal format: its blocks stand in the
two lists where its headers say, its changes make the one list of the other, and it is empty for
equal lists only. -/
theorem diff_normalFormat (a b : List String) (ha : Plain a) (hb : Plain b) :
    ∃ changes, read? (diff a b) = some changes ∧ (∀ c ∈ changes, c.Fits a b) ∧
      patch? a changes = some b ∧ (diff a b = "" ↔ a = b) := by
  have hread : read? (diff a b) = some ((hunks a b).map Hunk.change) :=
    read?_hunks (hunks_readable ha hb)
  have hpatch : patch? a ((hunks a b).map Hunk.change) = some b :=
    (patches_hunks a b).patchFrom?_map
  refine ⟨_, hread, ?_, hpatch, ?_⟩
  · intro c hc
    obtain ⟨hunk, hmem, rfl⟩ := List.mem_map.mp hc
    obtain ⟨hproper, hleft, hright⟩ := hunks_standsAt hmem
    exact Hunk.fits_change hproper hleft hright
  · constructor
    · intro hempty
      rw [hempty] at hread
      rw [← Option.some.inj hread] at hpatch
      exact Option.some.inj hpatch
    · rintro rfl
      exact diff_self a

/-- A changed line in the middle, and two lines more at the end. -/
theorem diff_normalFormat_three :
    Plain ["a", "b", "c"] ∧ Plain ["a", "x", "c", "d", "e"] ∧
    ∃ changes, read? (diff ["a", "b", "c"] ["a", "x", "c", "d", "e"]) = some changes ∧
      (∀ c ∈ changes, c.Fits ["a", "b", "c"] ["a", "x", "c", "d", "e"]) ∧
      patch? ["a", "b", "c"] changes = some ["a", "x", "c", "d", "e"] ∧
      (diff ["a", "b", "c"] ["a", "x", "c", "d", "e"] = "" ↔
        ["a", "b", "c"] = ["a", "x", "c", "d", "e"]) := by
  have ha : Plain ["a", "b", "c"] := by decide
  have hb : Plain ["a", "x", "c", "d", "e"] := by decide
  exact ⟨ha, hb, diff_normalFormat _ _ ha hb⟩

example : diff ["a", "b", "c"] ["a", "x", "c"] = "2c2\n< b\n---\n> x" := by cbv

example : read? "2c2\n< b\n---\n> x" = some [⟨⟨⟨2, 2⟩, .change, ⟨2, 2⟩⟩, ["b"], ["x"]⟩] := by cbv

end PocketUnix.Filter
