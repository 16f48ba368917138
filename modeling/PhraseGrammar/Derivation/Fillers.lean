import PhraseGrammar.Grammar.Basic
import PhraseGrammar.Rule.Order

/-! The cheapest filler of every symbol. Fillers start from the empty symbol and from declared costs
and spread through the rules: where all children of a rule have fillers, so has its symbol. -/

namespace PhraseGrammar

variable {κ : Type} [Cost κ]

namespace Filler

def nothing : Filler κ := ⟨0, [], []⟩

/-- Whether a filler takes the place of the best one so far. Of two alike the earlier stays. -/
def beats (candidate : Filler κ) : Option (Filler κ) → Bool
  | some current => candidate.compare current == .lt
  | none => true

def offer (current : Option (Filler κ)) (candidate : Filler κ) : Option (Filler κ) :=
  if candidate.beats current then some candidate else current

end Filler

omit [Cost κ] in
def Slot.quiet (slot : Slot) (filler : Filler κ) : Filler κ :=
  if slot.silent then { filler with text := [] } else filler

/-- The best filler known of each symbol, at the symbol's place. -/
abbrev Fillers (κ : Type) := List (Option (Filler κ))

omit [Cost κ] in
def Fillers.of? (best : Fillers κ) (symbol : Symbol) : Option (Filler κ) :=
  best[symbol.index]?.join

/-- A word stands for itself where an insertion cost is declared. -/
def WordRule.filler? (rule : WordRule κ) : Option (Filler κ) :=
  rule.insertionCost.map fun cost =>
    ⟨cost + rule.penalty, [rule.display], rule.meaning.toList⟩

omit [Cost κ] in
/-- The meanings of a rule whose children have the given meanings: a function that waits for
arguments takes them all, if it can; any other meaning comes before them. -/
def Signatures.reduce? (signatures : Signatures κ) (meaning : Option Meaning)
    (children : List Meaning) : Option (List Meaning) :=
  match meaning with
  | none => some children
  | some meaning =>
    if meaning.isReduced || children.isEmpty then some (meaning :: children)
    else (signatures.compose meaning children).toOption.map ([·])

namespace PhraseRule

/-- Puts the child that the rule leaves out among the others. It is paid for already. -/
def withElided (rule : PhraseRule κ) (parts : List (Filler κ)) : List (Filler κ) :=
  match rule.elided with
  | none => parts
  | some elided =>
    parts.insertIdx (min elided.position parts.length) { elided.filler with cost := 0 }

def joinedText (rule : PhraseRule κ) (parts : List (Filler κ)) : List Wording :=
  rule.text.getD (parts.flatMap (·.text))

def slotFiller? (rule : PhraseRule κ) (best : Fillers κ) (slot : Slot) (position : Nat) :
    Option (Filler κ) :=
  if !rule.allowsInsertion slot position then none
  else if slot.optional then some .nothing
  else best.of? slot.symbol

def parts? (rule : PhraseRule κ) (best : Fillers κ) : Option (List (Filler κ)) :=
  rule.slots.zipIdx.mapM fun (slot, position) =>
    (rule.slotFiller? best slot position).map slot.quiet

def composedFiller? (rule : PhraseRule κ) (signatures : Signatures κ) (best : Fillers κ) :
    Option (Filler κ) := do
  let parts := rule.withElided (← rule.parts? best)
  let meanings ← signatures.reduce? rule.meaning (parts.flatMap (·.meanings))
  return {
    cost := parts.foldl (fun cost part => cost + part.cost) rule.cost
    text := rule.joinedText parts
    meanings }

def declaredFiller? (rule : PhraseRule κ) (item : Option VocabularyItem) : Option (Filler κ) :=
  rule.insertionCost.map fun cost => {
    cost := cost + rule.cost
    text := rule.text.getD ((item.map (·.text)).getD [])
    meanings := rule.meaning.toList }

/-- The filler that a rule gives to its symbol: the better one of both kinds, and of two alike
the declared one. -/
def filler? (rule : PhraseRule κ) (signatures : Signatures κ) (item : Option VocabularyItem)
    (best : Fillers κ) : Option (Filler κ) :=
  if rule.unabridged then none
  else
    match rule.declaredFiller? item, rule.composedFiller? signatures best with
    | none, composed => composed
    | some declared, none => some declared
    | some declared, some composed =>
      if (declared.compare composed).isLE then some declared else some composed

end PhraseRule

/-- The filler of a symbol before any rule has spread one. -/
def Entry.seed (entry : Entry κ) (start : Option (Filler κ)) : Option (Filler κ) :=
  let words := entry.rules.filterMap fun
    | .word rule => rule.filler?
    | .phrase _ => none
  (entry.zeroFiller.toList ++ words).foldl Filler.offer start

namespace Grammar

def seeds (grammar : Grammar κ) : Fillers κ :=
  grammar.entries.zipIdx.map fun (entry, index) =>
    entry.seed (if Symbol.mk index = .empty then some .nothing else none)

omit [Cost κ] in
/-- The rules through which fillers spread, in the order of symbols and rules. Transposed rules say
no more than those they come from. -/
def fillingRules (grammar : Grammar κ) : List (Symbol × PhraseRule κ) :=
  grammar.phraseRules.filter fun (_, rule) => rule.origin ≠ .transposition

def spreadThrough (grammar : Grammar κ) (state : Fillers κ × Bool)
    (source : Symbol × PhraseRule κ) : Fillers κ × Bool :=
  let (best, changed) := state
  let (symbol, rule) := source
  match rule.filler? grammar.signatures (grammar.item? symbol) best with
  | none => (best, changed)
  | some candidate =>
    if candidate.beats (best.of? symbol) then
      (best.set symbol.index (some candidate), true)
    else (best, changed)

/-- One pass over all rules; each sees what those before it have changed. -/
def spread (grammar : Grammar κ) (best : Fillers κ) : Fillers κ × Bool :=
  grammar.fillingRules.foldl grammar.spreadThrough (best, false)

/-- Passes until one changes nothing, or until there are no more to make. -/
def settle (grammar : Grammar κ) : Nat → Fillers κ → Fillers κ
  | 0, best => best
  | passes + 1, best =>
    let (better, changed) := grammar.spread best
    if changed then grammar.settle passes better else better

/-- The cheapest filler of each symbol. One pass more than there are symbols has to suffice. -/
def fillers (grammar : Grammar κ) : Fillers κ :=
  grammar.settle (grammar.size + 1) grammar.seeds

end Grammar

end PhraseGrammar
