import PhraseGrammar.Meaning.Basic
import PhraseGrammar.Symbol
import PhraseGrammar.Wording

/-! Rules. A word rule matches one input token; a phrase rule matches what the symbols in its one or
two slots match. -/

namespace PhraseGrammar

inductive Tense
  | present
  | past
deriving DecidableEq, Ord

inductive VerbForm
  | infinitive
  | participle
  | past
deriving DecidableEq, Ord

inductive PersonNumber
  | oneSg
  | threeSg
  | pl
deriving DecidableEq, Ord

inductive PronounCase
  | nom
  | obj
deriving DecidableEq, Ord

/-- What a phrase asks of the words in it. -/
structure Agreement where
  form : Option VerbForm
  person : Option PersonNumber
  pronounCase : Option PronounCase
  /-- A verb of this tense keeps it when it is displayed as another. -/
  tense : Option Tense
deriving DecidableEq

namespace Agreement

def none : Agreement := ⟨.none, .none, .none, .none⟩

instance : Ord Agreement :=
  ⟨compareLex (compareOn Agreement.form) <| compareLex (compareOn Agreement.person) <|
    compareLex (compareOn Agreement.pronounCase) (compareOn Agreement.tense)⟩

end Agreement

structure IntRange where
  least : Int
  greatest : Int
deriving DecidableEq

inductive Origin
  | authored
  /-- One child of an authored pair is left out. -/
  | insertion
  /-- The children of an authored pair change places. -/
  | transposition
  /-- Children that match only the empty text are gone. -/
  | collapsed
deriving DecidableEq

/-- A way to match a symbol with no input at all: what it costs, what is displayed in place of the
missing input, and what the input would have meant. -/
structure Filler (κ : Type) where
  cost : κ
  text : List Wording
  meanings : List Meaning
deriving DecidableEq

structure Elided (κ : Type) where
  /-- Its place among the children of the rule that had it. -/
  position : Nat
  symbol : Symbol
  filler : Filler κ
deriving DecidableEq

structure WordRule (κ : Type) where
  literal : String
  /-- The literal itself is displayed where no text is given. -/
  text : Option Wording
  tense : Option Tense
  insertionCost : Option κ
  /-- Makes the word dearer than the usual one. -/
  penalty : κ
  meaning : Option Meaning
  /-- The category of which the word is a placeholder. -/
  category : Option String
  /-- The integers for which the word is a placeholder. -/
  range : Option IntRange
deriving DecidableEq

structure Slot where
  symbol : Symbol
  /-- The rule also matches without this child, at no cost. -/
  optional : Bool
  /-- This child is never left out at a cost. -/
  required : Bool
  /-- Nothing of this child is displayed. -/
  silent : Bool
deriving DecidableEq

structure PhraseRule (κ : Type) where
  slots : List Slot
  cost : κ
  meaning : Option Meaning
  /-- Displayed in place of the children. -/
  text : Option (List Wording)
  agreement : Agreement
  transpositionCost : Option κ
  insertionCost : Option κ
  /-- No child is ever left out. -/
  unabridged : Bool
  /-- Positions whose children are never left out. -/
  requiredPositions : List Nat
  origin : Origin
  elided : Option (Elided κ)
deriving DecidableEq

inductive Rule (κ : Type)
  | word (rule : WordRule κ)
  | phrase (rule : PhraseRule κ)
deriving DecidableEq

/-- The right-hand side of a rule, by which rules of one symbol are told apart. -/
inductive Side
  | word (literal : String)
  | phrase (symbols : List Symbol)
deriving DecidableEq

variable {κ : Type}

def integerLiteral : String := "<int>"

namespace WordRule

variable [Zero κ]

def ofLiteral (literal : String) : WordRule κ where
  literal
  text := some (.fixed literal)
  tense := none
  insertionCost := none
  penalty := 0
  meaning := none
  category := none
  range := none

def ofRange (least greatest : Int) : WordRule κ :=
  { ofLiteral integerLiteral with text := none, range := some ⟨least, greatest⟩ }

def ofCategory (category : String) : WordRule κ :=
  { ofLiteral (SymbolName.placeholder category) with
    text := none, category := some category, meaning := some (.entity category) }

omit [Zero κ] in
def display (rule : WordRule κ) : Wording :=
  rule.text.getD (.fixed rule.literal)

end WordRule

namespace Slot

def ofSymbol (symbol : Symbol) : Slot := ⟨symbol, false, false, false⟩

end Slot

namespace PhraseRule

def ofSlots [Zero κ] (slots : List Slot) : PhraseRule κ where
  slots
  cost := 0
  meaning := none
  text := none
  agreement := .none
  transpositionCost := none
  insertionCost := none
  unabridged := false
  requiredPositions := []
  origin := .authored
  elided := none

def ofSymbols [Zero κ] (symbols : List Symbol) : PhraseRule κ :=
  ofSlots (symbols.map .ofSymbol)

def symbols (rule : PhraseRule κ) : List Symbol :=
  rule.slots.map (·.symbol)

/-- Whether the child in a slot at a position may be left out at a cost. -/
def allowsInsertion (rule : PhraseRule κ) (slot : Slot) (position : Nat) : Bool :=
  !rule.unabridged && !slot.required && !rule.requiredPositions.contains position

end PhraseRule

namespace Rule

def cost : Rule κ → κ
  | .word rule => rule.penalty
  | .phrase rule => rule.cost

def meaning : Rule κ → Option Meaning
  | .word rule => rule.meaning
  | .phrase rule => rule.meaning

/-- Words are always authored. -/
def origin : Rule κ → Origin
  | .word _ => .authored
  | .phrase rule => rule.origin

def isWord : Rule κ → Bool
  | .word _ => true
  | .phrase _ => false

def side : Rule κ → Side
  | .word rule => .word rule.literal
  | .phrase rule => .phrase rule.symbols

def children : Rule κ → List Symbol
  | .word _ => []
  | .phrase rule => rule.symbols

def phrase? : Rule κ → Option (PhraseRule κ)
  | .word _ => none
  | .phrase rule => some rule

end Rule

end PhraseGrammar
