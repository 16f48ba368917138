import Mathlib.Algebra.Field.Rat
import PhraseGrammar.Cost.Basic

/-! The exact scale of costs: rational numbers, not below zero. Sums are not rounded, so that they
can be told apart from the order in which they are made. -/

namespace PhraseGrammar

instance : Cost ℚ≥0 where
  toZero := inferInstance
  toAdd := inferInstance
  toOrd := inferInstance
  isAcceptable _ := true
  isFree cost := cost == 0

end PhraseGrammar
