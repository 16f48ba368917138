import PhraseGrammar.Derivation.Transposition

/-! Derivation of rules: children that match only the empty text are collapsed, then insertion rules
are added until a round changes nothing, then transposition rules. -/

namespace PhraseGrammar

variable {κ : Type} [Cost κ]

structure Tally where
  /-- Rules rewritten or removed since children of them vanish. -/
  collapsed : Nat
  /-- Insertion rules added. -/
  insertions : Nat
  /-- Insertion rules replaced by better ones. -/
  replaced : Nat
  transpositions : Nat
  /-- Rounds of insertion, the last one included. -/
  rounds : Nat
  /-- Whether the last round changed nothing. -/
  settled : Bool
deriving DecidableEq

namespace Tally

def ofCollapsed (count : Nat) : Tally := ⟨count, 0, 0, 0, 0, false⟩

def recordRound (tally : Tally) (changes : Grammar.Changes) : Tally :=
  { tally with
    insertions := tally.insertions + changes.added
    replaced := tally.replaced + changes.replaced
    rounds := tally.rounds + 1
    settled := changes = .none }

end Tally

namespace Grammar

/-- Rounds of insertion until one changes nothing, or until there are no more to make. A new rule
may give a filler to its symbol, which is news for the rules that use the symbol. -/
def insertionRounds : Nat → Grammar κ → Tally → Grammar κ × Tally
  | 0, grammar, tally => (grammar, tally)
  | rounds + 1, grammar, tally =>
    let (grammar, changes) := grammar.insertionRound
    let tally := tally.recordRound changes
    if tally.settled then (grammar, tally) else insertionRounds rounds grammar tally

/-- Derives all rules. Only collapsing can be refused; it leaves what it did before the fault. -/
def derive (grammar : Grammar κ) : Grammar κ × Except (Fault κ) Tally :=
  match grammar.collapse with
  | (grammar, .error fault) => (grammar, .error fault)
  | (grammar, .ok count) =>
    let (grammar, tally) := insertionRounds (grammar.size + 1) grammar (.ofCollapsed count)
    let (grammar, transpositions) := grammar.transpose
    (grammar, .ok { tally with transpositions })

end Grammar

end PhraseGrammar
