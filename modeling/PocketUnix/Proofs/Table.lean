import Mathlib.Data.List.Sort
import PocketUnix.Table

/-!
# Tables in order

Names that stand in order stand once, so that a table with such names holds exactly what it is
asked for, whether it is read from the first entry on or halved again and again, and is known by
that. Putting values in and taking them out keeps the order.
-/

namespace PocketUnix.Table

variable {α : Type}

/-- The names stand in order, each of them once. -/
def Sorted (t : Table α) : Prop := t.Pairwise fun a b => a.1 < b.1

/-- What is found from the first entry on stands in the table. -/
theorem mem_of_get? {t : Table α} {name : String} {value : α} (h : get? name t = some value) :
    (name, value) ∈ t := by
  induction t with
  | nil => cases h
  | cons entry rest ih =>
    obtain ⟨key, old⟩ := entry
    by_cases hk : key = name
    · have hv : old = value := by simpa [get?, hk] using h
      rw [hk, hv]
      exact List.mem_cons_self
    · have hr : get? name rest = some value := by simpa [get?, hk] using h
      exact List.mem_cons_of_mem _ (ih hr)

/-- In a table in order no other entry stands in the way of the one that is looked for. -/
theorem Sorted.get?_of_mem {t : Table α} (h : Sorted t) {name : String} {value : α}
    (hm : (name, value) ∈ t) : get? name t = some value := by
  induction t with
  | nil => cases hm
  | cons entry rest ih =>
    obtain ⟨key, old⟩ := entry
    obtain ⟨hfirst, hrest⟩ := List.pairwise_cons.mp h
    rcases List.mem_cons.mp hm with he | hm
    · cases he
      simp [get?]
    · have hlt : key < name := hfirst _ hm
      have hne : key ≠ name := fun he => String.lt_irrefl name (he ▸ hlt)
      simp [get?, hne, ih hrest hm]

/-- Nothing behind a place comes before it. -/
theorem Sorted.not_lt_of_mem_drop {t : Table α} (h : Sorted t) {entry : String × α} {i k : Nat}
    (hi : i < t.length) (hk : i ≤ k) (hm : entry ∈ t.drop k) : ¬entry.1 < t[i].1 := by
  obtain ⟨j, hj, rfl⟩ := List.mem_iff_getElem.mp hm
  rw [List.getElem_drop]
  rw [List.length_drop] at hj
  rcases Nat.eq_or_lt_of_le (Nat.le_trans hk (Nat.le_add_right k j)) with he | hlt
  · simp only [← he]
    exact String.lt_irrefl _
  · exact String.lt_asymm (List.pairwise_iff_getElem.mp h i (k + j) hi _ hlt)

theorem Sorted.lt_of_mem_take {t : Table α} (h : Sorted t) {entry : String × α} {i : Nat}
    (hi : i < t.length) (hm : entry ∈ t.take i) : entry.1 < t[i].1 := by
  obtain ⟨j, hj, rfl⟩ := List.mem_iff_getElem.mp hm
  rw [List.getElem_take]
  rw [List.length_take] at hj
  exact List.pairwise_iff_getElem.mp h j i _ hi (by omega)

/-- Halving a table in order finds what is in it and nothing else. -/
theorem Sorted.search?_eq_some_iff {t : Table α} (h : Sorted t) {name : String} {value : α} :
    search? name t = some value ↔ (name, value) ∈ t := by
  fun_induction search? name t with
  | case1 => simp
  | case2 value => grind
  | case3 key value hne => grind
  | case4 first second rest t half hhalf hlt ih =>
    have hbehind : (name, value) ∉ t.drop (t.length - half) :=
      fun hm => h.not_lt_of_mem_drop _ (by omega) hm hlt
    rw [ih (List.Pairwise.sublist (List.take_sublist _ _) h)]
    constructor
    · exact List.mem_of_mem_take
    · intro hm
      have hm : (name, value) ∈ t := hm
      rw [← List.take_append_drop (t.length - half) t, List.mem_append] at hm
      exact hm.resolve_right hbehind
  | case5 first second rest t half hhalf hlt ih =>
    have hbefore : (name, value) ∉ t.take half := fun hm => hlt (h.lt_of_mem_take _ hm)
    rw [ih (List.Pairwise.sublist (List.drop_sublist _ _) h)]
    constructor
    · exact List.mem_of_mem_drop
    · intro hm
      have hm : (name, value) ∈ t := hm
      rw [← List.take_append_drop half t, List.mem_append] at hm
      exact hm.resolve_left hbefore

/-- Putting a value in brings no other entry along. -/
theorem mem_insert {t : Table α} {name : String} {value : α} {entry : String × α}
    (h : entry ∈ insert name value t) : entry = (name, value) ∨ entry ∈ t := by
  induction t with
  | nil => exact .inl (List.mem_singleton.mp h)
  | cons first rest ih =>
    obtain ⟨key, old⟩ := first
    unfold insert at h
    split at h
    · rcases List.mem_cons.mp h with h | h
      · exact .inl h
      · exact .inr (List.mem_cons_of_mem _ h)
    · split at h
      · exact List.mem_cons.mp h
      · rcases List.mem_cons.mp h with h | h
        · exact .inr (h ▸ List.mem_cons_self)
        · exact (ih h).imp_right (List.mem_cons_of_mem _)

/-- A value is put in at the place of its name. -/
theorem Sorted.insert {t : Table α} (h : Sorted t) (name : String) (value : α) :
    Sorted (insert name value t) := by
  induction t with
  | nil => exact List.pairwise_singleton _ _
  | cons first rest ih =>
    obtain ⟨key, old⟩ := first
    obtain ⟨hfirst, hrest⟩ := List.pairwise_cons.mp h
    unfold Table.insert
    split
    · next he => exact List.pairwise_cons.mpr ⟨fun e hm => he ▸ hfirst e hm, hrest⟩
    · next hne =>
      split
      · next hlt =>
        refine List.pairwise_cons.mpr ⟨fun e hm => ?_, h⟩
        rcases List.mem_cons.mp hm with rfl | hm
        · exact hlt
        · exact String.lt_trans hlt (hfirst e hm)
      · next hnlt =>
        have hlt : key < name := by grind
        refine List.pairwise_cons.mpr ⟨fun e hm => ?_, ih hrest⟩
        rcases mem_insert hm with rfl | hm
        · exact hlt
        · exact hfirst e hm

theorem Sorted.erase {t : Table α} (h : Sorted t) (name : String) : Sorted (erase name t) :=
  List.Pairwise.filter _ h

theorem mem_of_mem_erase {t : Table α} {name : String} {entry : String × α}
    (h : entry ∈ erase name t) : entry ∈ t :=
  (List.mem_filter.mp h).1

/-- What stands in the order of its names is known by its members. -/
theorem eq_of_mem_iff {β : Type} {name : β → String} {l l' : List β}
    (hl : l.Pairwise fun a b => name a < name b) (hl' : l'.Pairwise fun a b => name a < name b)
    (h : ∀ b, b ∈ l ↔ b ∈ l') : l = l' := by
  have hirrefl : Std.Irrefl fun a b : β => name a < name b := ⟨fun a => String.lt_irrefl (name a)⟩
  have hantisymm : Std.Antisymm fun a b : β => name a < name b :=
    ⟨fun _ _ hab hba => absurd hba (String.lt_asymm hab)⟩
  exact List.Pairwise.eq_of_mem_iff hl hl' h

/-- A table in order is known by what is found in it. -/
theorem Sorted.ext {t u : Table α} (ht : Sorted t) (hu : Sorted u)
    (h : ∀ name, get? name t = get? name u) : t = u := by
  refine eq_of_mem_iff ht hu fun (name, value) => ?_
  constructor
  · intro hm
    exact mem_of_get? (by rw [← h, ht.get?_of_mem hm])
  · intro hm
    exact mem_of_get? (by rw [h, hu.get?_of_mem hm])

/-- Of two values under one name the later one counts. -/
theorem Sorted.insert_insert {t : Table α} (h : Sorted t) (name : String) (old value : α) :
    Table.insert name value (Table.insert name old t) = Table.insert name value t := by
  refine ((h.insert name old).insert name value).ext (h.insert name value) fun other => ?_
  simp only [get?_insert]
  split <;> rfl

/-- To put in what is there changes nothing. -/
theorem Sorted.insert_of_get? {t : Table α} (h : Sorted t) {name : String} {value : α}
    (hvalue : get? name t = some value) : Table.insert name value t = t := by
  refine (h.insert name value).ext h fun other => ?_
  rw [get?_insert]
  split
  · next he => rw [← he, hvalue]
  · rfl

/-- A name that was free is free again once its value is taken out. -/
theorem Sorted.erase_insert {t : Table α} (h : Sorted t) {name : String} (value : α)
    (hfree : get? name t = none) : Table.erase name (Table.insert name value t) = t := by
  refine ((h.insert name value).erase name).ext h fun other => ?_
  rw [get?_erase, get?_insert]
  split
  · next he => rw [← he, hfree]
  · rfl

end PocketUnix.Table
