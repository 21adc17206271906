import PocketUnix.Session.Completion

/-!
# The longest common start of texts

Of all starts that some texts have in common one is the longest. It is found text by text, as the
start that each text shares with what has been found before.
-/

namespace PocketUnix.Completion

/-- The texts have this start in common, and every other common start is a start of it. -/
structure LongestStart (texts : List (List Char)) (start : List Char) : Prop where
  common : ∀ text ∈ texts, start <+: text
  longest : ∀ other, (∀ text ∈ texts, other <+: text) → other <+: start

/-- What two texts have in common is a start of both. -/
theorem prefixes_commonStart (a b : List Char) :
    commonStart a b <+: a ∧ commonStart a b <+: b := by
  induction a generalizing b with
  | nil => exact ⟨List.nil_prefix, List.nil_prefix⟩
  | cons c a ih =>
    cases b with
    | nil => exact ⟨List.nil_prefix, List.nil_prefix⟩
    | cons d b =>
      obtain ⟨ha, hb⟩ := ih b
      rw [commonStart]
      split
      · next hcd =>
        exact ⟨List.cons_prefix_cons.mpr ⟨rfl, ha⟩, List.cons_prefix_cons.mpr ⟨hcd, hb⟩⟩
      · exact ⟨List.nil_prefix, List.nil_prefix⟩

/-- There is no longer one. -/
theorem prefix_commonStart {start a b : List Char} (ha : start <+: a) (hb : start <+: b) :
    start <+: commonStart a b := by
  induction start generalizing a b with
  | nil => exact List.nil_prefix
  | cons c start ih =>
    obtain ⟨s, rfl⟩ := ha
    obtain ⟨t, rfl⟩ := hb
    rw [List.cons_append, List.cons_append, commonStart, if_pos rfl]
    exact List.cons_prefix_cons.mpr ⟨rfl, ih (List.prefix_append _ _) (List.prefix_append _ _)⟩

/-- A start is shared with two texts if it is shared with what they have in common. -/
theorem prefix_commonStart_iff {start a b : List Char} :
    start <+: commonStart a b ↔ start <+: a ∧ start <+: b := by
  constructor
  · intro h
    exact ⟨h.trans (prefixes_commonStart a b).1, h.trans (prefixes_commonStart a b).2⟩
  · rintro ⟨ha, hb⟩
    exact prefix_commonStart ha hb

theorem prefix_foldl_commonStart_iff {start first : List Char} {rest : List (List Char)} :
    start <+: rest.foldl commonStart first ↔ ∀ text ∈ first :: rest, start <+: text := by
  induction rest generalizing first with
  | nil => simp
  | cons second rest ih =>
    rw [List.foldl_cons, ih, List.forall_mem_cons, prefix_commonStart_iff]
    simp only [List.forall_mem_cons, and_assoc]

/-- What is found for some texts is their longest common start. -/
theorem longestStart_longestCommonStart {texts : List (List Char)} (h : texts ≠ []) :
    LongestStart texts (longestCommonStart texts) := by
  obtain ⟨first, rest, rfl⟩ := List.exists_cons_of_ne_nil h
  constructor
  · exact prefix_foldl_commonStart_iff.mp List.prefix_rfl
  · intro other hother
    exact prefix_foldl_commonStart_iff.mpr hother

end PocketUnix.Completion
