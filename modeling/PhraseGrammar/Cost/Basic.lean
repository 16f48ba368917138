import PhraseGrammar.Decimal.Numeral

/-! Costs. Grammars are built and derived over any scale of costs; what a scale must offer is
stated here, and how its costs are written. -/

namespace PhraseGrammar

/-- A scale of costs: a zero, a sum and an order by which the cheaper of two costs is chosen. -/
class Cost (κ : Type) extends Zero κ, Add κ, Ord κ where
  /-- A cost that an author may declare: a finite number, not below zero. -/
  isAcceptable : κ → Bool
  /-- A cost that charges nothing. -/
  isFree : κ → Bool

/-- How costs of a scale are written and read. -/
class WrittenCost (κ : Type) where
  /-- The form that messages use. -/
  plain : κ → String
  /-- The numeral that documents use; none for what is no number. -/
  numeral? : κ → Option Numeral
  ofNumeral? : Numeral → Option κ

end PhraseGrammar
