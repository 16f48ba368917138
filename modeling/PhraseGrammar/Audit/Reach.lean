import PhraseGrammar.SymbolSet

/-! Which symbols can occur below which others. -/

namespace PhraseGrammar

variable {κ : Type}

/-- A relation between the symbols of a grammar: the set of the symbols related to each. -/
structure SymbolRelation where
  rows : List SymbolSet
deriving DecidableEq

namespace SymbolRelation

def row (relation : SymbolRelation) (symbol : Symbol) : SymbolSet :=
  relation.rows[symbol.index]?.getD .new

def relates (relation : SymbolRelation) (a b : Symbol) : Bool :=
  (relation.row a).contains b

def joinAt (relation : SymbolRelation) (middle : Symbol) : SymbolRelation :=
  let onward := relation.row middle
  ⟨relation.rows.map fun row => if row.contains middle then row.union onward else row⟩

/-- All pairs that a path of one step or more connects. Paths are joined at one symbol after the
other, so that those through the first `k` symbols are found after `k` steps. -/
def transitive (relation : SymbolRelation) : SymbolRelation :=
  ((List.range relation.rows.length).map Symbol.mk).foldl joinAt relation

def reflexive (relation : SymbolRelation) : SymbolRelation :=
  ⟨relation.rows.zipIdx.map fun (row, index) => row.put ⟨index⟩ true⟩

end SymbolRelation

namespace Grammar

/-- The children of a symbol: of its rules, and those that vanished from them. -/
def childrenOf (grammar : Grammar κ) (symbol : Symbol) : List Symbol :=
  grammar.vanishedOf symbol ++ (grammar.rulesOf symbol).flatMap Rule.children

def childRelation (grammar : Grammar κ) : SymbolRelation :=
  ⟨grammar.symbols.map fun parent =>
    .ofTest grammar.size fun child => (grammar.childrenOf parent).contains child⟩

def reach (grammar : Grammar κ) : SymbolRelation :=
  grammar.childRelation.transitive.reflexive

def reachable (grammar : Grammar κ) : SymbolSet :=
  (SymbolSet.filled grammar.size false).putAll (grammar.reach.row .start).members

end Grammar

end PhraseGrammar
