/-!
# Wildcard patterns

A star stands for any text, a question mark for any character, every other character for itself.
A name is read once from its start. Of the stars only the last one is remembered: where the pattern
does not fit, this star takes in one more character and the pattern behind it is tried again.
-/

namespace PocketUnix.Glob

/-- Does a character of a pattern that is no star stand for a character of a name? -/
def fits (p c : Char) : Bool := p == '?' || p == c

/-- Reads on behind a star. The pattern behind the star is `behind`, and `left` is what of the name
the star has left so far; both are at least as long as what is still to be read of them. -/
def scanBehind (behind left pattern name : List Char)
    (hp : pattern.length ≤ behind.length) (hn : name.length ≤ left.length) : Bool :=
  match name, pattern with
  | [], pattern => pattern.all (· == '*')
  | c :: cs, p :: ps =>
    if p = '*' then scanBehind ps (c :: cs) ps (c :: cs) (Nat.le_refl _) (Nat.le_refl _)
    else if fits p c then
      scanBehind behind left ps cs (Nat.le_of_succ_le hp) (Nat.le_of_succ_le hn)
    else scanBehind behind left.tail behind left.tail (Nat.le_refl _) (Nat.le_refl _)
  | _ :: _, [] =>
    scanBehind behind left.tail behind left.tail (Nat.le_refl _) (Nat.le_refl _)
termination_by (behind.length, left.length, pattern.length)
decreasing_by
  · exact Prod.Lex.left _ _ hp
  · exact Prod.Lex.right _ (Prod.Lex.right _ (Nat.lt_succ_self _))
  all_goals
    refine Prod.Lex.right _ (Prod.Lex.left _ _ ?_)
    rw [List.length_tail]
    rw [List.length_cons] at hn
    omega

/-- Reads a name as long as no star has been met. -/
def scan : List Char → List Char → Bool
  | pattern, [] => pattern.all (· == '*')
  | [], _ :: _ => false
  | p :: ps, c :: cs =>
    if p = '*' then scanBehind ps (c :: cs) ps (c :: cs) (Nat.le_refl _) (Nat.le_refl _)
    else fits p c && scan ps cs

/-- Does the whole name match? -/
def accepts (pattern name : String) : Bool := scan pattern.toList name.toList

end PocketUnix.Glob
