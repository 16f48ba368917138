import PhraseGrammar.Grammar.Basic

/-! The listing of a grammar: one line for each rule, by symbol. -/

namespace PhraseGrammar

variable {κ : Type}

def Origin.remark : Origin → String
  | .authored => ""
  | .insertion => " // insertion"
  | .transposition => " // transposition"
  | .collapsed => " // collapsed"

namespace Grammar

def ruleLine (grammar : Grammar κ) (name : String) (rule : Rule κ) : String :=
  s!"{name} ::= {grammar.renderSide rule};{rule.origin.remark}\n"

def listing (grammar : Grammar κ) : String :=
  String.join <| grammar.entries.flatMap fun entry =>
    entry.rules.map (grammar.ruleLine entry.name)

end Grammar

end PhraseGrammar
