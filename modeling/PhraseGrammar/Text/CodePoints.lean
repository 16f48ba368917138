/-! Sets of characters, given by runs of code points. -/

namespace PhraseGrammar

/-- Runs of code points in ascending order, each by its first and its last one. -/
abbrev CodePoints := List (Nat × Nat)

/-- The first run that does not end before a code point decides. -/
def CodePoints.contains : CodePoints → Nat → Bool
  | [], _ => false
  | (first, last) :: rest, n => if n ≤ last then first ≤ n else contains rest n

end PhraseGrammar
