import PocketUnix.Shell.Options

/-!
# Operands among arguments

An argument that does not begin with a dash is an operand, whatever letters take values.
-/

namespace PocketUnix.Shell.Options

variable {valued : List Char} {arg : String}

/-- An argument that does not begin with a dash is one operand more. -/
theorem read_operand (h : arg.toList.head? ≠ some '-') (rest : List String) :
    read valued (arg :: rest) =
      { read valued rest with operands := arg :: (read valued rest).operands } := by
  rw [read.eq_def]
  split
  · next hnil => cases hnil
  · next first rest hcons =>
    obtain ⟨rfl, rfl⟩ := List.cons_eq_cons.mp hcons
    split
    · next hletters => exact absurd (by rw [hletters]; rfl) h
    · next hletters => exact absurd (by rw [hletters]; rfl) h
    · next hletters => exact absurd (by rw [hletters]; rfl) h
    · rfl

theorem ofArgs_operand (h : arg.toList.head? ≠ some '-') (valued : String) :
    ofArgs valued [arg] = { operands := [arg] } :=
  read_operand h []

end PocketUnix.Shell.Options
