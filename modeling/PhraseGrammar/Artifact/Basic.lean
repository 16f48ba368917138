import PhraseGrammar.Grammar.Basic

/-! Artifacts: what a parser reads of a grammar. Symbols are called by their names, and what only
matters while rules are derived is left out. -/

namespace PhraseGrammar

variable {κ : Type}

/-- A child that a rule leaves out, by name. -/
structure ArtifactElided (κ : Type) where
  position : Nat
  symbol : String
  filler : Filler κ
deriving DecidableEq

structure ArtifactRule (κ : Type) where
  isWord : Bool
  /-- The names of the children, or the literal alone. -/
  side : List String
  cost : κ
  text : List Wording
  tense : Option Tense
  insertionCost : Option κ
  meaning : Option Meaning
  agreement : Agreement
  transpositionCost : Option κ
  origin : Origin
  elided : Option (ArtifactElided κ)
  optionalPositions : List Nat
  silentPositions : List Nat
  category : Option String
  range : Option IntRange
deriving DecidableEq

structure Artifact (κ : Type) where
  start : String
  rules : Table (List (ArtifactRule κ))
  signatures : Signatures κ
  categories : Table Category
deriving DecidableEq

namespace Artifact

def ruleCount (artifact : Artifact κ) : Nat :=
  (artifact.rules.entries.flatMap (·.2)).length

end Artifact

namespace PhraseRule

def positionsWhere (rule : PhraseRule κ) (test : Slot → Bool) : List Nat :=
  (rule.slots.zipIdx.filter fun (slot, _) => test slot).map (·.2)

end PhraseRule

namespace Grammar

def artifactElided (grammar : Grammar κ) (elided : Elided κ) : ArtifactElided κ :=
  ⟨elided.position, grammar.nameOf elided.symbol, elided.filler⟩

def artifactRule (grammar : Grammar κ) : Rule κ → ArtifactRule κ
  | .word rule =>
    { isWord := true
      side := [rule.literal]
      cost := rule.penalty
      text := rule.text.toList
      tense := rule.tense
      insertionCost := rule.insertionCost
      meaning := rule.meaning
      agreement := .none
      transpositionCost := none
      origin := .authored
      elided := none
      optionalPositions := []
      silentPositions := []
      category := rule.category
      range := rule.range }
  | .phrase rule =>
    { isWord := false
      side := rule.symbols.map grammar.nameOf
      cost := rule.cost
      text := rule.text.getD []
      tense := none
      insertionCost := rule.insertionCost
      meaning := rule.meaning
      agreement := rule.agreement
      transpositionCost := rule.transpositionCost
      origin := rule.origin
      elided := rule.elided.map grammar.artifactElided
      optionalPositions := rule.positionsWhere (·.optional)
      silentPositions := rule.positionsWhere (·.silent)
      category := none
      range := none }

/-- The start symbol is in the artifact in any case, other symbols when they have rules. -/
def artifactEntries (grammar : Grammar κ) : List (String × List (ArtifactRule κ)) :=
  grammar.symbols.filterMap fun symbol =>
    let rules := grammar.rulesOf symbol
    if rules.isEmpty && symbol ≠ .start then none
    else some (grammar.nameOf symbol, rules.map grammar.artifactRule)

def artifact (grammar : Grammar κ) : Artifact κ where
  start := grammar.nameOf .start
  rules := .ofList grammar.artifactEntries
  signatures := grammar.signatures
  categories := grammar.categories

end Grammar

end PhraseGrammar
