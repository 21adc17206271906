import PocketUnix.Permissions

/-!
# Permission texts

A permission text is the letter of a kind of node and nine places, each of which shows the letter
of its right or none. Whatever a mode does to such a text, it stays one and keeps its kind letter.
-/

namespace PocketUnix.Permissions

/-- The text letter by letter. -/
theorem toList_render (letter : Char) (bits : List Bool) :
    (render letter bits).toList =
      letter :: bits.mapIdx fun k on => if on then rightLetter (k % 3) else '-' := by
  simp [render]

@[simp] theorem kindLetter_render (letter : Char) (bits : List Bool) :
    kindLetter (render letter bits) = letter := by
  simp [kindLetter, toList_render]

/-- The text has a letter and nine places. -/
def Rendered (permissions : String) : Prop :=
  ∃ letter bits, List.length bits = 9 ∧ permissions = render letter bits

theorem Rendered.length_eq {permissions : String} (h : Rendered permissions) :
    permissions.toList.length = 10 := by
  obtain ⟨letter, bits, hlen, rfl⟩ := h
  simp [toList_render, hlen]

/-- The first letter tells the kind. -/
theorem Rendered.first {permissions : String} (h : Rendered permissions) :
    permissions.toList[0]? = some (kindLetter permissions) := by
  obtain ⟨letter, bits, -, rfl⟩ := h
  rw [kindLetter_render, toList_render]
  rfl

/-- A place shows the right that belongs to it, or nothing. -/
theorem Rendered.place {permissions : String} (h : Rendered permissions) {i : Nat} (hi : i < 9) :
    permissions.toList[i + 1]? = some '-' ∨
      permissions.toList[i + 1]? = some (rightLetter (i % 3)) := by
  obtain ⟨letter, bits, hlen, rfl⟩ := h
  have hbit : i < bits.length := by omega
  rw [toList_render, List.getElem?_cons_succ, List.getElem?_mapIdx, List.getElem?_eq_getElem hbit,
    Option.map_some]
  cases bits[i] with
  | true => exact .inr rfl
  | false => exact .inl rfl

theorem length_bits (permissions : String) : (bits permissions).length = 9 := by
  simp only [bits, List.length_append, List.length_map, List.length_replicate, List.length_take]
  omega

@[simp] theorem Clause.length_apply (c : Clause) (b : List Bool) :
    (c.apply b).length = b.length := by
  simp [Clause.apply]

theorem length_foldl_apply (clauses : List Clause) (b : List Bool) :
    (clauses.foldl (fun b c => c.apply b) b).length = b.length := by
  induction clauses generalizing b with
  | nil => rfl
  | cons c clauses ih => rw [List.foldl_cons, ih, Clause.length_apply]

/-- Each octal digit has three bits. -/
theorem length_bitsOfDigits (digits : List Nat) :
    (bitsOfDigits digits).length = 3 * digits.length := by
  induction digits with
  | nil => rfl
  | cons d digits ih =>
    have hlen : (bitsOfDigits (d :: digits)).length = 3 + (bitsOfDigits digits).length := by
      simp [bitsOfDigits]
      omega
    rw [hlen, ih, List.length_cons]
    omega

/-- A mode that was read from octal digits has three of them. -/
theorem Mode.length_of_read {s : String} {digits : List Nat}
    (h : Mode.read? s = some (.octal digits)) : digits.length = 3 := by
  unfold Mode.read? at h
  dsimp only at h
  split at h
  · have hd := Mode.octal.inj (Option.some.inj h)
    rw [← hd, List.length_append, List.length_replicate, List.length_drop]
    omega
  · simp at h

@[simp] theorem Mode.kindLetter_apply (m : Mode) (permissions : String) :
    kindLetter (m.apply permissions) = kindLetter permissions :=
  kindLetter_render _ _

/-- Whatever text a mode is applied to, a letter and nine places come of it. -/
theorem Mode.rendered_apply {s : String} {m : Mode} (h : Mode.read? s = some m)
    (permissions : String) : Rendered (m.apply permissions) := by
  cases m with
  | octal digits =>
    have hlen : (bitsOfDigits digits).length = 9 := by
      rw [length_bitsOfDigits, Mode.length_of_read h]
    exact ⟨_, _, hlen, rfl⟩
  | symbolic clauses =>
    have hlen : (clauses.foldl (fun b c => c.apply b) (bits permissions)).length = 9 := by
      rw [length_foldl_apply, length_bits]
    exact ⟨_, _, hlen, rfl⟩

end PocketUnix.Permissions
