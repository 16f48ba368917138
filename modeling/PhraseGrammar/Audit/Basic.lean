import PhraseGrammar.Audit.Productive
import PhraseGrammar.Audit.Reach

/-! The audit of a grammar: what it declares and never uses. -/

namespace PhraseGrammar

variable {κ : Type}

namespace Rule

def meanings : Rule κ → List Meaning
  | .word rule => rule.meaning.toList
  | .phrase rule => rule.meaning.toList ++ (rule.elided.map (·.filler.meanings)).getD []

def category? : Rule κ → Option String
  | .word rule => rule.category
  | .phrase _ => none

end Rule

namespace Grammar

def reachableEntries (grammar : Grammar κ) : List (Entry κ) :=
  grammar.reachable.members.filterMap grammar.entryOf?

def reachableMeanings (grammar : Grammar κ) : List Meaning :=
  grammar.reachableEntries.flatMap fun entry =>
    (entry.zeroFiller.map (·.meanings)).getD [] ++ entry.rules.flatMap Rule.meanings

def usedNames (grammar : Grammar κ) : List String :=
  grammar.reachableMeanings.flatMap Meaning.names

/-- The categories in use, by a meaning or by a placeholder. -/
def usedCategories (grammar : Grammar κ) : List String :=
  grammar.reachableMeanings.flatMap Meaning.categories ++
    grammar.reachableEntries.flatMap fun entry => entry.rules.filterMap Rule.category?

/-- All that is declared and never used. The reserved symbols are always in use. -/
def unused (grammar : Grammar κ) : Unused :=
  let reachable := grammar.reachable
  let reserved := grammar.reserved
  let names := fun (set : SymbolSet) => set.members.map grammar.nameOf
  let usedNames := grammar.usedNames
  let usedCategories := grammar.usedCategories
  { unreachable := names (reachable.complement.diff reserved)
    unproductive := names ((grammar.productive.complement.diff reserved).inter reachable)
    meanings := grammar.signatures.names.filter fun name => !usedNames.contains name
    categories := grammar.categories.names.filter fun name => !usedCategories.contains name }

def requireUsed (grammar : Grammar κ) : Except (Fault κ) Unit :=
  let unused := grammar.unused
  if unused.isEmpty then .ok () else .error (.unused unused)

end Grammar

end PhraseGrammar
