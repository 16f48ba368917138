import PhraseGrammar.Grammar.Basic
import PhraseGrammar.Text.Blank

/-! Adding symbols and rules to a grammar. Each operation checks all that it is given before it
changes anything. -/

namespace PhraseGrammar

variable {κ : Type} [Cost κ]

/-- A word is one token. A placeholder is never inserted, and its range holds an integer. -/
def WordRule.check (rule : WordRule κ) (name : String) : Except (Fault κ) Unit := do
  unless isToken rule.literal do
    throw (.malformedToken rule.literal name)
  requireCost .rule .penalty rule.penalty
  requireCost? .rule .insertion rule.insertionCost
  if rule.insertionCost.isSome && (rule.category.isSome || rule.range.isSome) then
    throw (.illFormed .rule (.placeholderInsertion rule.literal))
  match rule.range with
  | some range =>
    if range.greatest < range.least then
      throw (.illFormed .rule (.emptyRange range.least range.greatest))
  | none => pure ()

/-- A phrase has one or two children, which the grammar knows; only pairs are transposed, and
positions are those of children. -/
def PhraseRule.check (grammar : Grammar κ) (rule : PhraseRule κ) (name : String) :
    Except (Fault κ) Unit := do
  let count := rule.slots.length
  unless count = 1 ∨ count = 2 do
    throw (.illFormed .rule (.childCount name count))
  rule.symbols.forM fun symbol => discard (grammar.requireEntry symbol)
  requireCost .rule .own rule.cost
  requireCost? .rule .transposition rule.transpositionCost
  if rule.transpositionCost.isSome && count ≠ 2 then
    throw (.illFormed .rule (.unaryTransposition name))
  requireCost? .rule .insertion rule.insertionCost
  match rule.requiredPositions.find? (count ≤ ·) with
  | some position => throw (.illFormed .rule (.positionOutOfBounds position name))
  | none => pure ()

namespace Grammar

def checkRule (grammar : Grammar κ) (name : String) : Rule κ → Except (Fault κ) Unit
  | .word rule => rule.check name
  | .phrase rule => rule.check grammar name

/-- Checks a rule among the rules that its symbol has: no two of them have one right-hand side. -/
def validate (grammar : Grammar κ) (name : String) (rule : Rule κ) (others : List (Rule κ)) :
    Except (Fault κ) Unit := do
  grammar.checkRule name rule
  if others.any fun other => other.side = rule.side then
    throw (.duplicateRule name (grammar.renderSide rule))

def validateAll (grammar : Grammar κ) (name : String) :
    List (Rule κ) → List (Rule κ) → Except (Fault κ) (List (Rule κ))
  | accepted, [] => .ok accepted
  | accepted, rule :: rest => do
    grammar.validate name rule accepted
    validateAll grammar name (accepted ++ [rule]) rest

omit [Cost κ] in
def requireNewName (grammar : Grammar κ) (name : String) : Except (Fault κ) Unit :=
  if (grammar.symbol? name).isSome then .error (.duplicateSymbol name) else .ok ()

omit [Cost κ] in
def push (grammar : Grammar κ) (entry : Entry κ) : Grammar κ × Symbol :=
  ({ grammar with entries := grammar.entries ++ [entry] }, ⟨grammar.size⟩)

omit [Cost κ] in
@[simp] theorem size_push (grammar : Grammar κ) (entry : Entry κ) :
    (grammar.push entry).1.size = grammar.size + 1 :=
  List.length_append

omit [Cost κ] in
theorem entryOf?_push_self (grammar : Grammar κ) (entry : Entry κ) :
    (grammar.push entry).1.entryOf? (grammar.push entry).2 = some entry := by
  simp [push, entryOf?, size]

omit [Cost κ] in
theorem entryOf?_push_of_lt (grammar : Grammar κ) (entry : Entry κ) {symbol : Symbol}
    (h : symbol.index < grammar.size) :
    (grammar.push entry).1.entryOf? symbol = grammar.entryOf? symbol :=
  List.getElem?_append_left h

omit [Cost κ] in
def newSymbol (grammar : Grammar κ) (parts : List String) :
    Except (Fault κ) (Grammar κ × Symbol) := do
  if parts.isEmpty || parts.any String.isEmpty then
    throw (.illFormed .symbol .emptyNamePart)
  let name := SymbolName.compose parts
  grammar.requireNewName name
  return grammar.push (.ofName name)

def define (grammar : Grammar κ) (name : String) (rules : List (Rule κ))
    (item : Option VocabularyItem) : Except (Fault κ) (Grammar κ × Symbol) := do
  grammar.requireNewName name
  let rules ← grammar.validateAll name [] rules
  return grammar.push { Entry.ofName name with rules, item }

omit [Cost κ] in
def update (grammar : Grammar κ) (symbol : Symbol) (change : Entry κ → Entry κ) : Grammar κ :=
  { grammar with entries := grammar.entries.modify symbol.index change }

omit [Cost κ] in
@[simp] theorem size_update (grammar : Grammar κ) (symbol : Symbol)
    (change : Entry κ → Entry κ) : (grammar.update symbol change).size = grammar.size :=
  List.length_modify ..

omit [Cost κ] in
theorem entryOf?_update_self (grammar : Grammar κ) (symbol : Symbol) (change : Entry κ → Entry κ) :
    (grammar.update symbol change).entryOf? symbol = (grammar.entryOf? symbol).map change := by
  simp [update, entryOf?]

omit [Cost κ] in
theorem entryOf?_update_of_ne (grammar : Grammar κ) {symbol other : Symbol} (h : other ≠ symbol)
    (change : Entry κ → Entry κ) :
    (grammar.update symbol change).entryOf? other = grammar.entryOf? other := by
  have apart : symbol.index ≠ other.index := fun same => h (congrArg Symbol.mk same).symm
  simp [update, entryOf?, apart]

omit [Cost κ] in
def appendRule (grammar : Grammar κ) (symbol : Symbol) (rule : Rule κ) : Grammar κ :=
  grammar.update symbol fun entry => { entry with rules := entry.rules ++ [rule] }

/-- Adds a rule to a symbol, other than the empty symbol and the items of the vocabulary. -/
def addRule (grammar : Grammar κ) (symbol : Symbol) (rule : Rule κ) :
    Except (Fault κ) (Grammar κ) := do
  let entry ← grammar.requireEntry symbol
  if symbol = .empty then
    throw (.illFormed .rule .rulesOfEmpty)
  if entry.item.isSome then
    throw (.illFormed .rule (.rulesOfVocabulary entry.name))
  grammar.validate entry.name rule entry.rules
  return grammar.appendRule symbol rule

/-- Adds rules one after the other until one is refused; those before it stay. -/
def addRules (grammar : Grammar κ) :
    List (Symbol × Rule κ) → Grammar κ × Except (Fault κ) Unit
  | [] => (grammar, .ok ())
  | (symbol, rule) :: rest =>
    match grammar.addRule symbol rule with
    | .ok grown => grown.addRules rest
    | .error fault => (grammar, .error fault)

/-- Makes a symbol for a pair of children, named after them. -/
def newPair (grammar : Grammar κ) (rule : PhraseRule κ) :
    Except (Fault κ) (Grammar κ × Symbol) := do
  unless rule.slots.length = 2 do
    throw (.illFormed .binaryRule (.notBinary rule.slots.length))
  let entries ← rule.symbols.mapM grammar.requireEntry
  grammar.define (SymbolName.compose (entries.map (·.name))) [.phrase rule] none

end Grammar

end PhraseGrammar
