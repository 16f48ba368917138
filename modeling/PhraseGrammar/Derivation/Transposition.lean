import PhraseGrammar.Derivation.Elision

/-! Transposition rules: an authored pair that declares a transposition cost also matches its
children in the other order, at that cost. -/

namespace PhraseGrammar

variable {κ : Type} [Cost κ]

namespace PhraseRule

def swapping (rule : PhraseRule κ) (pair : Slot × Slot) (cost : κ) : PhraseRule κ :=
  { rule with
    slots := [pair.2, pair.1]
    cost := rule.cost + cost
    transpositionCost := none
    insertionCost := none
    requiredPositions := remapPositions (fun i => some (1 - i)) rule.requiredPositions
    origin := .transposition
    elided := none }

def transposition? (rule : PhraseRule κ) : Option (PhraseRule κ) :=
  if rule.origin = .authored then do
    let pair ← rule.pair?
    let cost ← rule.transpositionCost
    return rule.swapping pair cost
  else none

end PhraseRule

namespace Grammar

def transpositionOffers (grammar : Grammar κ) : List (Symbol × PhraseRule κ) :=
  grammar.phraseRules.filterMap fun (symbol, rule) => rule.transposition?.map (symbol, ·)

omit [Cost κ] in
/-- Adds a rule unless its symbol has the right-hand side. Counts the rules added. -/
def addAbsent (state : Grammar κ × Nat) (source : Symbol × PhraseRule κ) : Grammar κ × Nat :=
  let (grammar, count) := state
  let (symbol, rule) := source
  if (grammar.rulesOf symbol).any fun present => present.side = .phrase rule.symbols then
    (grammar, count)
  else (grammar.appendRule symbol (.phrase rule), count + 1)

def transpose (grammar : Grammar κ) : Grammar κ × Nat :=
  grammar.transpositionOffers.foldl addAbsent (grammar, 0)

end Grammar

end PhraseGrammar
