import PhraseGrammar.Grammar.Build

/-! The vocabulary: symbols whose rules together are one word in all its forms, or a sequence of
such symbols. All rules of an item share what is displayed. -/

namespace PhraseGrammar

variable {κ : Type} [Cost κ]

/-- Spellings of a verb that are matched and never displayed. -/
structure VerbSpellings where
  presentSubjunctive : Option String
  presentParticiple : Option String
  pastParticiple : Option String
deriving DecidableEq

/-- A spelling for which the first accepted term is displayed. -/
structure Substitute (κ : Type) where
  term : String
  penalty : κ
deriving DecidableEq

/-- One or two items of the vocabulary in sequence. -/
structure SequenceTerm (κ : Type) where
  symbols : List Symbol
  requiredPositions : List Nat
  penalty : κ
deriving DecidableEq

omit [Cost κ] in
def requireItemName (what : Declaration) (name : String) : Except (Fault κ) String :=
  if name.isEmpty then .error (.illFormed what .emptySymbolName)
  else .ok (SymbolName.compose [name])

/-- A form of a verb. A form of the past says so, since phrases may keep the tense of the input. -/
def verbRule (text : Wording) (tense : Tense) (literal : String) : WordRule κ :=
  { WordRule.ofLiteral literal with
    text := some text
    tense := if tense = .past then some .past else none }

/-- One rule for each form. A plural that is spelled like the first person singular adds
nothing; only the first rule is inserted. -/
def verbRules (forms : VerbForms) (spellings : VerbSpellings) (insertionCost : Option κ) :
    List (WordRule κ) :=
  let text := Wording.verb forms
  { verbRule text .present forms.oneSg with insertionCost } ::
    verbRule text .present forms.threeSg ::
    (if forms.pl = forms.oneSg then [] else [verbRule text .present forms.pl]) ++
    verbRule text .past forms.past ::
    (spellings.presentSubjunctive.toList.map (verbRule text .present) ++
      spellings.presentParticiple.toList.map (verbRule text .present) ++
      spellings.pastParticiple.toList.map (verbRule text .past))

def invariableRules (first : String) (more : List String) (substitutes : List (Substitute κ))
    (insertionCost : Option κ) : List (WordRule κ) :=
  { WordRule.ofLiteral first with insertionCost } ::
    (more.map WordRule.ofLiteral ++ substitutes.map fun substitute =>
      { WordRule.ofLiteral substitute.term with
        text := some (.fixed first), penalty := substitute.penalty })

/-- An objective form that is spelled like the nominative adds nothing. -/
def pronounRules (forms : PronounForms) (insertionCost : Option κ) : List (WordRule κ) :=
  let text := Wording.pronoun forms
  { WordRule.ofLiteral forms.nom with text := some text, insertionCost } ::
    if forms.obj = forms.nom then []
    else [{ WordRule.ofLiteral forms.obj with text := some text }]

def SequenceTerm.rule (term : SequenceTerm κ) : PhraseRule κ :=
  { PhraseRule.ofSymbols term.symbols with requiredPositions := term.requiredPositions }

/-- The first accepted term is inserted, and displayed for all substitutes. -/
def sequenceRules (text : List Wording) (first : SequenceTerm κ) (more : List (SequenceTerm κ))
    (substitutes : List (SequenceTerm κ)) (insertionCost : Option κ) : List (PhraseRule κ) :=
  { first.rule with insertionCost } ::
    (more.map SequenceTerm.rule ++ substitutes.map fun term =>
      { term.rule with cost := term.penalty, text := some text })

namespace Grammar

def defineWords (grammar : Grammar κ) (name : String) (wordClass : WordClass) (text : Wording)
    (rules : List (WordRule κ)) : Except (Fault κ) (Grammar κ × Symbol) :=
  grammar.define name (rules.map .word) (some ⟨wordClass, false, [text]⟩)

def addVerb (grammar : Grammar κ) (name : String) (forms : VerbForms)
    (spellings : VerbSpellings) (insertionCost : Option κ) :
    Except (Fault κ) (Grammar κ × Symbol) := do
  let name ← requireItemName .verb name
  requireCost? .verb .insertion insertionCost
  grammar.defineWords name .verb (.verb forms) (verbRules forms spellings insertionCost)

def addInvariable (grammar : Grammar κ) (name : String) (accepted : List String)
    (substitutes : List (Substitute κ)) (insertionCost : Option κ) :
    Except (Fault κ) (Grammar κ × Symbol) := do
  let name ← requireItemName .invariable name
  requireCost? .invariable .insertion insertionCost
  match accepted with
  | [] => throw (.illFormed .invariable .noAcceptedTerms)
  | first :: more =>
    substitutes.forM fun substitute => requireCost .invariable .penalty substitute.penalty
    grammar.defineWords name .invariable (.fixed first)
      (invariableRules first more substitutes insertionCost)

def addPronoun (grammar : Grammar κ) (name : String) (forms : PronounForms)
    (insertionCost : Option κ) : Except (Fault κ) (Grammar κ × Symbol) := do
  let name ← requireItemName .pronoun name
  requireCost? .pronoun .insertion insertionCost
  grammar.defineWords name .pronoun (.pronoun forms) (pronounRules forms insertionCost)

omit [Cost κ] in
def requireItem (grammar : Grammar κ) (name : String) (symbol : Symbol) :
    Except (Fault κ) WordClass := do
  let entry ← grammar.requireEntry symbol
  match entry.item with
  | some item => return item.wordClass
  | none => throw (.illFormed .sequence (.notVocabulary entry.name name))

/-- A term has one or two items, and one of them is of the word class of the sequence. -/
def checkTerm (grammar : Grammar κ) (name : String) (wordClass : WordClass)
    (term : SequenceTerm κ) : Except (Fault κ) Unit := do
  requireCost .sequence .penalty term.penalty
  let count := term.symbols.length
  unless count = 1 ∨ count = 2 do
    throw (.illFormed .sequence (.termLength name count))
  let classes ← term.symbols.mapM (grammar.requireItem name)
  unless classes.contains wordClass do
    throw (.illFormed .sequence (.wordClassMissing name wordClass))

omit [Cost κ] in
def displayOf (grammar : Grammar κ) (symbols : List Symbol) : List Wording :=
  symbols.flatMap fun symbol => ((grammar.item? symbol).map (·.text)).getD []

def addSequence (grammar : Grammar κ) (name : String) (wordClass : WordClass)
    (accepted substitutes : List (SequenceTerm κ)) (insertionCost : Option κ) :
    Except (Fault κ) (Grammar κ × Symbol) := do
  let name ← requireItemName .sequence name
  requireCost? .sequence .insertion insertionCost
  match accepted with
  | [] => throw (.illFormed .sequence .noAcceptedTerms)
  | first :: more =>
    (accepted ++ substitutes).forM (grammar.checkTerm name wordClass)
    unless accepted.all fun term => Cost.isFree term.penalty do
      throw (.illFormed .sequence (.acceptedPenalty name))
    let text := grammar.displayOf first.symbols
    let rules := sequenceRules text first more substitutes insertionCost
    grammar.define name (rules.map .phrase) (some ⟨wordClass, true, text⟩)

/-- Makes a sequence of exactly one pair of items, named after them. -/
def addPairSequence (grammar : Grammar κ) (wordClass : WordClass) (first second : Symbol) :
    Except (Fault κ) (Grammar κ × Symbol) := do
  let a ← grammar.requireEntry first
  let b ← grammar.requireEntry second
  grammar.addSequence (SymbolName.compose [a.name, b.name]) wordClass
    [⟨[first, second], [], 0⟩] [] none

end Grammar

end PhraseGrammar
