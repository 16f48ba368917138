import PhraseGrammar.Derivation.Fillers
import PhraseGrammar.Grammar.Build

/-! Collapsing: children that match only the empty text are dropped from all rules. A rule that
loses all its children goes, and its symbol matches the empty text; a symbol that loses all its
rules that way vanishes in its turn. -/

namespace PhraseGrammar

variable {κ : Type} [Cost κ]

/-- What is left of a rule without the children that vanish. -/
inductive Remains (κ : Type)
  | rule (rule : PhraseRule κ)
  /-- No child is left, and the rule matches the empty text. -/
  | filler (filler : Filler κ)

/-- New positions in ascending order, each once. -/
def remapPositions (map : Nat → Option Nat) (positions : List Nat) : List Nat :=
  ((positions.filterMap map).mergeSort fun a b => a ≤ b).eraseReps

namespace PhraseRule

omit [Cost κ] in
def hasVanishing (vanishing : Fillers κ) (rule : PhraseRule κ) : Bool :=
  rule.symbols.any fun symbol => (vanishing.of? symbol).isSome

omit [Cost κ] in
def staying (vanishing : Fillers κ) (rule : PhraseRule κ) : List (Slot × Nat) :=
  rule.slots.zipIdx.filter fun (slot, _) => (vanishing.of? slot.symbol).isNone

omit [Cost κ] in
def vanishingChildren (vanishing : Fillers κ) (rule : PhraseRule κ) : List (Elided κ) :=
  rule.slots.zipIdx.filterMap fun (slot, position) =>
    (vanishing.of? slot.symbol).map fun filler => ⟨position, slot.symbol, slot.quiet filler⟩

/-- The rule that is left when some children stay. It pays for those that vanish, and keeps the
first of them, the empty symbol apart, as the child that it leaves out. -/
def remainder (vanishing : Fillers κ) (rule : PhraseRule κ) : PhraseRule κ :=
  let staying := rule.staying vanishing
  let gone := rule.vanishingChildren vanishing
  { rule with
    slots := staying.map (·.1)
    cost := gone.foldl (fun cost child => cost + child.filler.cost) rule.cost
    transpositionCost := none
    requiredPositions :=
      remapPositions (fun i => staying.findIdx? (·.2 == i)) rule.requiredPositions
    origin := .collapsed
    elided := (gone.find? (·.symbol ≠ .empty)).or rule.elided }

/-- The filler that is left when no child stays. A function that cannot take the meanings of the
children stands before them. -/
def zeroFiller (signatures : Signatures κ) (vanishing : Fillers κ) (rule : PhraseRule κ) :
    Filler κ :=
  let gone := rule.vanishingChildren vanishing
  let parts := rule.withElided (gone.map (·.filler))
  let children := parts.flatMap (·.meanings)
  { cost := gone.foldl (fun cost child => cost + child.filler.cost) rule.cost
    text := rule.joinedText parts
    meanings := (signatures.reduce? rule.meaning children).getD (rule.meaning.toList ++ children) }

def remains (signatures : Signatures κ) (vanishing : Fillers κ) (rule : PhraseRule κ) :
    Remains κ :=
  if (rule.staying vanishing).isEmpty then .filler (rule.zeroFiller signatures vanishing)
  else .rule (rule.remainder vanishing)

end PhraseRule

namespace Remains

omit [Cost κ] in
def rule? : Remains κ → Option (Rule κ)
  | .rule left => some (.phrase left)
  | .filler _ => none

omit [Cost κ] in
def filler? : Remains κ → Option (Filler κ)
  | .rule _ => none
  | .filler left => some left

end Remains

namespace Rule

omit [Cost κ] in
def hasVanishing (vanishing : Fillers κ) : Rule κ → Bool
  | .word _ => false
  | .phrase rule => rule.hasVanishing vanishing

end Rule

namespace Grammar

/-- The fillers of the symbols that match only the empty text. -/
def vanishing (grammar : Grammar κ) : Fillers κ :=
  grammar.symbols.map fun symbol =>
    if symbol = .empty then some .nothing
    else if grammar.matchesOnlyEmpty symbol then grammar.zeroFiller? symbol
    else none

/-- Drops the vanishing children from the rules of one symbol. Rules that lose none come first;
what is left of the others is validated among them. Also counts the rules that lose any. -/
def collapseEntry (grammar : Grammar κ) (vanishing : Fillers κ) (entry : Entry κ) :
    Except (Fault κ) (Entry κ × Nat) := do
  let affected := entry.phraseRules.filter (·.hasVanishing vanishing)
  if affected.isEmpty then
    return (entry, 0)
  let untouched := entry.rules.filter fun rule => !rule.hasVanishing vanishing
  let remains := affected.map (·.remains grammar.signatures vanishing)
  let rules ← grammar.validateAll entry.name untouched (remains.filterMap Remains.rule?)
  let gone := affected.flatMap fun rule =>
    rule.symbols.filter fun symbol => (vanishing.of? symbol).isSome && symbol ≠ .empty
  let entry := { entry with
    rules
    zeroFiller := (remains.filterMap Remains.filler?).foldl Filler.offer entry.zeroFiller
    vanished := ((entry.vanished ++ gone).mergeSort fun a b => a.index ≤ b.index).eraseReps }
  return (entry, affected.length)

def collapseEntries (grammar : Grammar κ) (vanishing : Fillers κ) :
    List (Entry κ) → List (Entry κ) × Except (Fault κ) Nat
  | [] => ([], .ok 0)
  | entry :: rest =>
    match grammar.collapseEntry vanishing entry with
    | .error fault => (entry :: rest, .error fault)
    | .ok (collapsed, count) =>
      let (others, result) := grammar.collapseEntries vanishing rest
      (collapsed :: others, result.map (count + ·))

/-- Drops the children that vanish at present. A fault leaves the symbols before it collapsed. -/
def collapseRound (grammar : Grammar κ) : Grammar κ × Except (Fault κ) Nat :=
  let (entries, result) := grammar.collapseEntries grammar.vanishing grammar.entries
  ({ grammar with entries }, result)

def collapseRounds : Nat → Grammar κ → Grammar κ × Except (Fault κ) Nat
  | 0, grammar => (grammar, .ok 0)
  | rounds + 1, grammar =>
    match grammar.collapseRound with
    | (grammar, .error fault) => (grammar, .error fault)
    | (grammar, .ok 0) => (grammar, .ok 0)
    | (grammar, .ok (count + 1)) =>
      let (grammar, result) := collapseRounds rounds grammar
      (grammar, result.map (count + 1 + ·))

omit [Cost κ] in
/-- The number of children in all rules. Each round that drops any leaves fewer of them. -/
def slotCount (grammar : Grammar κ) : Nat :=
  ((grammar.entries.flatMap Entry.phraseRules).flatMap (·.slots)).length

def collapse (grammar : Grammar κ) : Grammar κ × Except (Fault κ) Nat :=
  collapseRounds (grammar.slotCount + 1) grammar

end Grammar

end PhraseGrammar
