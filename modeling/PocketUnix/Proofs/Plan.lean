import Mathlib.Data.List.Induction
import PocketUnix.Shell.Fault

/-!
# Plans

A plan is made operand by operand and may be refused on the way. What one operand keeps true of a
plan holds, by induction, of a whole plan that was accepted.
-/

namespace PocketUnix.Plan

variable {α β : Type}

/-- A plan in two parts is accepted if both parts are. -/
theorem bind_eq_ok_iff {x : Except Fault α} {f : α → Except Fault β} {b : β} :
    x >>= f = .ok b ↔ ∃ a, x = .ok a ∧ f a = .ok b := by
  cases x with
  | error fault =>
    constructor
    · intro h
      cases h
    · rintro ⟨a, h, -⟩
      cases h
  | ok a =>
    constructor
    · exact fun h => ⟨a, rfl, h⟩
    · rintro ⟨b, h, hf⟩
      cases h
      exact hf

theorem map_eq_ok_iff {x : Except Fault α} {f : α → β} {b : β} :
    x.map f = .ok b ↔ ∃ a, x = .ok a ∧ f a = b := by
  cases x <;> simp [Except.map]

theorem foldlM_concat_eq_ok_iff {f : β → α → Except Fault β} {l : List α} {a : α} {b c : β} :
    (l ++ [a]).foldlM f b = .ok c ↔ ∃ d, l.foldlM f b = .ok d ∧ f d a = .ok c := by
  rw [List.foldlM_append, bind_eq_ok_iff]
  simp only [List.foldlM_cons, List.foldlM_nil, bind_pure]

/-- What every operand keeps true of the operands and the plan before it is true at the end. -/
theorem foldlM_invariant {f : β → α → Except Fault β} {I : List α → β → Prop}
    (step : ∀ done b a c, I done b → f b a = .ok c → I (done ++ [a]) c) {l : List α} {b c : β}
    (hb : I [] b) (h : l.foldlM f b = .ok c) : I l c := by
  induction l using List.reverseRecOn generalizing c with
  | nil =>
    cases h
    exact hb
  | append_singleton l a ih =>
    obtain ⟨d, hd, h⟩ := foldlM_concat_eq_ok_iff.mp h
    exact step l d a c (ih hd) h

/-- Where an operand is only checked before it is added to the plan, all of them are. -/
theorem foldlM_eq_ok_iff {f : β → α → Except Fault β} {C : α → Prop} {g : β → α → β}
    (hf : ∀ b a c, f b a = .ok c ↔ C a ∧ c = g b a) {l : List α} {b c : β} :
    l.foldlM f b = .ok c ↔ (∀ a ∈ l, C a) ∧ c = l.foldl g b := by
  induction l generalizing b with
  | nil =>
    rw [List.foldlM_nil]
    simp [pure, Except.pure, eq_comm]
  | cons a l ih =>
    rw [List.foldlM_cons, bind_eq_ok_iff, List.forall_mem_cons, List.foldl_cons]
    constructor
    · rintro ⟨d, hd, h⟩
      obtain ⟨ha, rfl⟩ := (hf b a d).mp hd
      obtain ⟨hl, rfl⟩ := ih.mp h
      exact ⟨⟨ha, hl⟩, rfl⟩
    · rintro ⟨⟨ha, hl⟩, rfl⟩
      exact ⟨g b a, (hf b a _).mpr ⟨ha, rfl⟩, ih.mpr ⟨hl, rfl⟩⟩

/-- Every part of an accepted plan was found for some operand. -/
theorem exists_of_mem_mapM {f : α → Except Fault β} {l : List α} {bs : List β}
    (h : l.mapM f = .ok bs) {b : β} (hb : b ∈ bs) : ∃ a ∈ l, f a = .ok b := by
  induction l generalizing bs with
  | nil =>
    cases h
    cases hb
  | cons a l ih =>
    rw [List.mapM_cons, bind_eq_ok_iff] at h
    obtain ⟨c, hc, h⟩ := h
    obtain ⟨cs, hcs, h⟩ := bind_eq_ok_iff.mp h
    cases h
    rcases List.mem_cons.mp hb with rfl | hb
    · exact ⟨a, List.mem_cons_self, hc⟩
    · obtain ⟨d, hd, hf⟩ := ih hcs hb
      exact ⟨d, List.mem_cons_of_mem a hd, hf⟩

/-- Where an operand is only checked before it is used, all of them are. -/
theorem mapM_eq_ok_iff {f : α → Except Fault β} {C : α → Prop} {g : α → β}
    (hf : ∀ a b, f a = .ok b ↔ C a ∧ b = g a) {l : List α} {bs : List β} :
    l.mapM f = .ok bs ↔ (∀ a ∈ l, C a) ∧ bs = l.map g := by
  induction l generalizing bs with
  | nil =>
    rw [List.mapM_nil]
    simp [pure, Except.pure, eq_comm]
  | cons a l ih =>
    rw [List.mapM_cons, bind_eq_ok_iff, List.forall_mem_cons, List.map_cons]
    constructor
    · rintro ⟨b, hb, h⟩
      obtain ⟨cs, hcs, h⟩ := bind_eq_ok_iff.mp h
      cases h
      obtain ⟨ha, rfl⟩ := (hf a b).mp hb
      obtain ⟨hl, rfl⟩ := ih.mp hcs
      exact ⟨⟨ha, hl⟩, rfl⟩
    · rintro ⟨⟨ha, hl⟩, rfl⟩
      exact ⟨g a, (hf a _).mpr ⟨ha, rfl⟩, bind_eq_ok_iff.mpr ⟨l.map g, ih.mpr ⟨hl, rfl⟩, rfl⟩⟩

/-- Where each member can be read, all of them are, also if there is no fault to answer with. -/
theorem mapM_eq_some_map {f : α → Option β} {g : α → β} {l : List α}
    (h : ∀ a ∈ l, f a = some (g a)) : l.mapM f = some (l.map g) := by
  induction l with
  | nil => rfl
  | cons a l ih =>
    obtain ⟨ha, hl⟩ := List.forall_mem_cons.mp h
    rw [List.mapM_cons, ha, ih hl]
    rfl

/-- A check of all operands that is passed is passed by each of them. -/
theorem forM_eq_ok {f : α → Except Fault Unit} {l : List α} (h : l.forM f = .ok ()) {a : α}
    (ha : a ∈ l) : f a = .ok () := by
  induction l with
  | nil => cases ha
  | cons b l ih =>
    obtain ⟨⟨⟩, hb, h⟩ := bind_eq_ok_iff.mp h
    rcases List.mem_cons.mp ha with rfl | ha
    · exact hb
    · exact ih h ha

end PocketUnix.Plan
