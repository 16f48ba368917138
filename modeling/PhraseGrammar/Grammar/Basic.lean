import PhraseGrammar.Fault
import PhraseGrammar.Meaning.Signature
import PhraseGrammar.Rule.Basic
import PhraseGrammar.Table
import PhraseGrammar.Text.Quoted

/-! Grammars: symbols with their names and rules, and what the rules refer to. -/

namespace PhraseGrammar

variable {κ : Type}

/-- A symbol whose rules together are one item of the vocabulary. -/
structure VocabularyItem where
  wordClass : WordClass
  /-- Whether the item is made of other items. -/
  isSequence : Bool
  /-- What is displayed for the item. -/
  text : List Wording
deriving DecidableEq

/-- Something in the world, with the names under which it is found in the input. -/
structure Entity where
  display : String
  names : List String
deriving DecidableEq

/-- Entities that one placeholder stands for. -/
structure Category where
  /-- The name of the placeholder's symbol. -/
  symbol : String
  entities : List Entity
deriving DecidableEq

/-- All that a grammar knows about one symbol. -/
structure Entry (κ : Type) where
  name : String
  rules : List (Rule κ)
  item : Option VocabularyItem
  /-- Set when the symbol matches the empty text. -/
  zeroFiller : Option (Filler κ)
  /-- Children that are gone from the rules because they match only the empty text, in ascending
  order. -/
  vanished : List Symbol
deriving DecidableEq

structure Grammar (κ : Type) where
  /-- The entry of each symbol, at the symbol's place. -/
  entries : List (Entry κ)
  signatures : Signatures κ
  categories : Table Category

namespace Entry

def ofName (name : String) : Entry κ := ⟨name, [], none, none, []⟩

def phraseRules (entry : Entry κ) : List (PhraseRule κ) :=
  entry.rules.filterMap Rule.phrase?

end Entry

namespace Grammar

def new : Grammar κ where
  entries := [.ofName SymbolName.start, .ofName SymbolName.empty]
  signatures := .empty
  categories := .empty

def size (grammar : Grammar κ) : Nat := grammar.entries.length

def entryOf? (grammar : Grammar κ) (symbol : Symbol) : Option (Entry κ) :=
  grammar.entries[symbol.index]?

def symbols (grammar : Grammar κ) : List Symbol :=
  (List.range grammar.size).map Symbol.mk

def nameOf (grammar : Grammar κ) (symbol : Symbol) : String :=
  ((grammar.entryOf? symbol).map (·.name)).getD SymbolName.unknown

def symbol? (grammar : Grammar κ) (name : String) : Option Symbol :=
  (grammar.entries.findIdx? fun entry => entry.name == name).map Symbol.mk

/-- The rules of a symbol in the order in which they were added; a foreign symbol has none. -/
def rulesOf (grammar : Grammar κ) (symbol : Symbol) : List (Rule κ) :=
  ((grammar.entryOf? symbol).map (·.rules)).getD []

def item? (grammar : Grammar κ) (symbol : Symbol) : Option VocabularyItem :=
  (grammar.entryOf? symbol).bind (·.item)

def zeroFiller? (grammar : Grammar κ) (symbol : Symbol) : Option (Filler κ) :=
  (grammar.entryOf? symbol).bind (·.zeroFiller)

def vanishedOf (grammar : Grammar κ) (symbol : Symbol) : List Symbol :=
  ((grammar.entryOf? symbol).map (·.vanished)).getD []

def matchesEmpty (grammar : Grammar κ) (symbol : Symbol) : Bool :=
  symbol = .empty || (grammar.zeroFiller? symbol).isSome

/-- Whether a symbol matches the empty text and nothing else: no rule of it is left. -/
def matchesOnlyEmpty (grammar : Grammar κ) (symbol : Symbol) : Bool :=
  symbol = .empty ||
    ((grammar.zeroFiller? symbol).isSome && (grammar.rulesOf symbol).isEmpty)

def ruleCount (grammar : Grammar κ) : Nat :=
  (grammar.entries.flatMap (·.rules)).length

def phraseRules (grammar : Grammar κ) : List (Symbol × PhraseRule κ) :=
  grammar.symbols.flatMap fun symbol =>
    (grammar.rulesOf symbol).filterMap fun rule => rule.phrase?.map (symbol, ·)

def requireEntry (grammar : Grammar κ) (symbol : Symbol) : Except (Fault κ) (Entry κ) :=
  match grammar.entryOf? symbol with
  | some entry => .ok entry
  | none => .error (.unknownSymbol symbol.index)

def renderSide (grammar : Grammar κ) : Rule κ → String
  | .word rule => quoted rule.literal
  | .phrase rule => " ~ ".intercalate (rule.symbols.map grammar.nameOf)

end Grammar

end PhraseGrammar
