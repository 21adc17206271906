import PocketUnix.Filter.Sort
import PocketUnix.Proofs.Text.Bytes

/-!
# Lines in the order of their keys

Lines are in order if their keys are, and if lines with one key stand as they stood before. There is
only one such order. Leaving out each line that equals the one in front of it leaves no line twice,
unless some line stands between two copies of another one.
-/

namespace PocketUnix.Filter

/-- What a line is compared by. -/
def SortOrder.sortKey (o : SortOrder) (line : String) : String :=
  if o.folded then Text.toLower (o.key line) else o.key line

/-- The lines by the bytes of their keys. Lines with equal keys keep their order. -/
structure Ordered (o : SortOrder) (lines rows : List String) : Prop where
  perm : rows.Perm lines
  sorted : rows.Pairwise fun a b => Text.bytes (o.sortKey a) ≤ Text.bytes (o.sortKey b)
  stable : ∀ key, rows.filter (o.sortKey · = key) = lines.filter (o.sortKey · = key)

variable {o : SortOrder} {a b : String} {lines rows rows' : List String}

/-- Only keys of lines that are there matter. -/
theorem ordered_iff : Ordered o lines rows ↔
    rows.Perm lines ∧
      (rows.Pairwise fun a b => Text.bytes (o.sortKey a) ≤ Text.bytes (o.sortKey b)) ∧
      ∀ line ∈ lines, rows.filter (o.sortKey · = o.sortKey line) =
        lines.filter (o.sortKey · = o.sortKey line) := by
  constructor
  · rintro ⟨hperm, hsorted, hstable⟩
    exact ⟨hperm, hsorted, fun line _ => hstable (o.sortKey line)⟩
  · rintro ⟨hperm, hsorted, hstable⟩
    refine ⟨hperm, hsorted, fun key => ?_⟩
    by_cases hkey : ∃ line ∈ lines, o.sortKey line = key
    · obtain ⟨line, hline, rfl⟩ := hkey
      exact hstable line hline
    · have hlines : lines.filter (o.sortKey · = key) = [] := by simpa using hkey
      have hrows := hperm.filter (o.sortKey · = key)
      rw [hlines] at hrows ⊢
      exact hrows.eq_nil

instance : Decidable (Ordered o lines rows) := decidable_of_iff _ ordered_iff.symm

theorem SortOrder.le_iff (h : o.numeric = false) :
    o.le a b = true ↔ o.sortKey a ≤ o.sortKey b := by
  unfold SortOrder.le SortOrder.sortKey
  simp only [h]
  cases o.folded <;> simp

/-- Sorting keeps lines with equal keys in their order, as it is stable. -/
theorem ordered_mergeSort (h : o.numeric = false) (lines : List String) :
    Ordered o lines (lines.mergeSort o.le) := by
  have htrans : ∀ a b c, o.le a b = true → o.le b c = true → o.le a c = true := by
    simp only [SortOrder.le_iff h]
    exact fun a b c => String.le_trans
  have htotal : ∀ a b, (o.le a b || o.le b a) = true := by
    simp only [Bool.or_eq_true, SortOrder.le_iff h]
    exact fun a b => String.le_total _ _
  have hperm := List.mergeSort_perm lines o.le
  refine ⟨hperm, ?_, fun key => ?_⟩
  · refine (List.pairwise_mergeSort htrans htotal lines).imp fun hab => ?_
    exact Text.bytes_le_iff.mpr ((SortOrder.le_iff h).mp hab)
  · have hequal : (lines.filter (o.sortKey · = key)).Pairwise fun a b => o.le a b = true := by
      refine List.pairwise_of_forall_mem_list fun a ha b hb => ?_
      have hkey : o.sortKey a = o.sortKey b := by
        simp only [List.mem_filter, decide_eq_true_eq] at ha hb
        rw [ha.2, hb.2]
      exact (SortOrder.le_iff h).mpr (hkey ▸ String.le_refl _)
    have hkept := List.sublist_mergeSort htrans htotal hequal List.filter_sublist
    have hsublist : (lines.filter (o.sortKey · = key)).Sublist
        ((lines.mergeSort o.le).filter (o.sortKey · = key)) := by
      simpa using hkept.filter (o.sortKey · = key)
    exact (hsublist.eq_of_length (hperm.filter _).length_eq.symm).symm

theorem eq_of_bytes_le (hab : Text.bytes a ≤ Text.bytes b) (hba : Text.bytes b ≤ Text.bytes a) :
    a = b :=
  String.le_antisymm (Text.bytes_le_iff.mp hab) (Text.bytes_le_iff.mp hba)

theorem mem_iff_of_filter_eq
    (h : ∀ key, rows.filter (o.sortKey · = key) = rows'.filter (o.sortKey · = key))
    (row : String) : row ∈ rows ↔ row ∈ rows' := by
  have hrow := congrArg (row ∈ ·) (h (o.sortKey row))
  simpa [List.mem_filter] using hrow

theorem head_le_of_mem
    (h : (a :: rows).Pairwise fun a b => Text.bytes (o.sortKey a) ≤ Text.bytes (o.sortKey b))
    (hb : b ∈ a :: rows) : Text.bytes (o.sortKey a) ≤ Text.bytes (o.sortKey b) := by
  rcases List.mem_cons.mp hb with rfl | hb
  · exact Text.bytes_le_iff.mpr (String.le_refl _)
  · exact (List.pairwise_cons.mp h).1 b hb

/-- Rows in order are known by the rows for each key: among those with one key both begin with their
first row. -/
theorem eq_of_filter_eq
    (h : rows.Pairwise fun a b => Text.bytes (o.sortKey a) ≤ Text.bytes (o.sortKey b))
    (h' : rows'.Pairwise fun a b => Text.bytes (o.sortKey a) ≤ Text.bytes (o.sortKey b))
    (hkeys : ∀ key, rows.filter (o.sortKey · = key) = rows'.filter (o.sortKey · = key)) :
    rows = rows' := by
  induction rows generalizing rows' with
  | nil =>
    have hnone : ∀ row, row ∉ rows' := fun row => by simp [← mem_iff_of_filter_eq hkeys row]
    exact (List.eq_nil_iff_forall_not_mem.mpr hnone).symm
  | cons a rows ih =>
    have hmem := mem_iff_of_filter_eq hkeys
    cases rows' with
    | nil => simpa using hmem a
    | cons b rows' =>
      have hab := head_le_of_mem h ((hmem b).mpr List.mem_cons_self)
      have hba := head_le_of_mem h' ((hmem a).mp List.mem_cons_self)
      have hkey : o.sortKey b = o.sortKey a := eq_of_bytes_le hba hab
      have hheads := hkeys (o.sortKey a)
      simp only [List.filter_cons, hkey, decide_true, if_true, List.cons.injEq] at hheads
      obtain ⟨rfl, -⟩ := hheads
      have htails : ∀ key, rows.filter (o.sortKey · = key) = rows'.filter (o.sortKey · = key) := by
        intro key
        have hboth := hkeys key
        simp only [List.filter_cons] at hboth
        split at hboth
        · exact (List.cons.inj hboth).2
        · exact hboth
      rw [ih h.of_cons h'.of_cons htails]

theorem Ordered.unique (h : Ordered o lines rows) (h' : Ordered o lines rows') : rows = rows' :=
  eq_of_filter_eq h.sorted h'.sorted fun key => (h.stable key).trans (h'.stable key).symm

/-- Some line stands between two copies of another one. -/
def Between (rows : List String) : Prop :=
  ∃ a b, a ≠ b ∧ [a, b, a].Sublist rows

/-- Some line stands between two copies of another one, and has the same key. -/
def Mixed (o : SortOrder) (lines : List String) : Prop :=
  ∃ a b, a ≠ b ∧ o.sortKey a = o.sortKey b ∧ [a, b, a].Sublist lines

/-- Of lines with one key the sorted list holds what the given one holds, in the same order. -/
theorem Ordered.sublist_iff (h : Ordered o lines rows) (hkey : o.sortKey a = o.sortKey b) :
    [a, b, a].Sublist rows ↔ [a, b, a].Sublist lines := by
  have hall : [a, b, a].filter (o.sortKey · = o.sortKey a) = [a, b, a] := by simp [hkey]
  constructor
  · intro hsub
    have hkept := hsub.filter (o.sortKey · = o.sortKey a)
    rw [hall, h.stable] at hkept
    exact hkept.trans List.filter_sublist
  · intro hsub
    have hkept := hsub.filter (o.sortKey · = o.sortKey a)
    rw [hall, ← h.stable] at hkept
    exact hkept.trans List.filter_sublist

theorem Ordered.sortKey_eq (h : Ordered o lines rows) (hsub : [a, b, a].Sublist rows) :
    o.sortKey a = o.sortKey b := by
  have hsorted := h.sorted.sublist hsub
  simp only [List.pairwise_cons, List.mem_cons, List.not_mem_nil, or_false, forall_eq_or_imp,
    forall_eq] at hsorted
  exact eq_of_bytes_le hsorted.1.1 hsorted.2.1

/-- Lines with equal keys end up next to each other, so the key need not be asked for in the end. -/
theorem Ordered.mixed_iff (h : Ordered o lines rows) : Mixed o lines ↔ Between rows := by
  constructor
  · rintro ⟨a, b, hne, hkey, hsub⟩
    exact ⟨a, b, hne, (h.sublist_iff hkey).mpr hsub⟩
  · rintro ⟨a, b, hne, hsub⟩
    have hkey := h.sortKey_eq hsub
    exact ⟨a, b, hne, hkey, (h.sublist_iff hkey).mp hsub⟩

theorem mem_dropRepeats : a ∈ dropRepeats rows ↔ a ∈ rows := by
  fun_induction dropRepeats rows with
  | case1 => rfl
  | case2 => rfl
  | case3 b rest ih => simp [ih]
  | case4 b c rest hne ih => simp [ih]

theorem between_reverse : Between rows.reverse ↔ Between rows := by
  have hsub (a b : String) : [a, b, a].Sublist rows.reverse ↔ [a, b, a].Sublist rows := by
    rw [show [a, b, a] = [a, b, a].reverse from rfl, List.reverse_sublist]
    rfl
  simp only [Between, hsub]

/-- A further line in front adds the copies of itself behind another one, and nothing else. -/
theorem between_cons : Between (a :: rows) ↔ Between rows ∨ ∃ b, a ≠ b ∧ [b, a].Sublist rows := by
  constructor
  · rintro ⟨c, b, hne, hsub⟩
    rcases List.sublist_cons_iff.mp hsub with hsub | ⟨_, hcons, hsub⟩
    · exact .inl ⟨c, b, hne, hsub⟩
    · obtain ⟨rfl, rfl⟩ := List.cons.inj hcons
      exact .inr ⟨b, hne, hsub⟩
  · rintro (⟨c, b, hne, hsub⟩ | ⟨b, hne, hsub⟩)
    · exact ⟨c, b, hne, hsub.cons a⟩
    · exact ⟨a, b, hne, hsub.cons_cons a⟩

/-- When repeats in a row are left out, a line is there twice just if another one stood between two
copies of it. The induction drops the first of two equal lines: what stands behind the second one
stands behind the first one too. -/
theorem nodup_dropRepeats_iff : (dropRepeats rows).Nodup ↔ ¬Between rows := by
  fun_induction dropRepeats rows with
  | case1 => simp [Between]
  | case2 line => simp [Between, List.sublist_cons_iff]
  | case3 b rest ih =>
    have hrest : Between (b :: b :: rest) ↔ Between (b :: rest) := by
      rw [between_cons, or_iff_left_iff_imp]
      rintro ⟨c, hne, hsub⟩
      rcases List.sublist_cons_iff.mp hsub with hsub | ⟨_, hcons, -⟩
      · exact between_cons.mpr (.inr ⟨c, hne, hsub⟩)
      · exact absurd (List.cons.inj hcons).1.symm hne
    rw [ih, hrest]
  | case4 b c rest hne ih =>
    have hcopy : (∃ d, b ≠ d ∧ [d, b].Sublist (c :: rest)) ↔ b ∈ c :: rest := by
      constructor
      · rintro ⟨d, -, hsub⟩
        exact hsub.subset (by simp)
      · intro hb
        have hb := (List.mem_cons.mp hb).resolve_left hne
        exact ⟨c, hne, (List.singleton_sublist.mpr hb).cons_cons c⟩
    rw [List.nodup_cons, mem_dropRepeats, ih, between_cons (a := b), hcopy, not_or, and_comm]

end PocketUnix.Filter
