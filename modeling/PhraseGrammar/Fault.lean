import PhraseGrammar.Audit.Unused
import PhraseGrammar.Cost.Basic
import PhraseGrammar.Meaning.Basic

/-! Why an operation on a grammar is refused. A fault names its cause; the wording comes last. -/

namespace PhraseGrammar

inductive Declaration
  | symbol
  | rule
  | binaryRule
  | function
  | argument
  | composition
  | category
  | verb
  | invariable
  | pronoun
  | sequence
deriving DecidableEq

def Declaration.label : Declaration → String
  | .symbol => "symbol"
  | .rule => "rule"
  | .binaryRule => "binary rule"
  | .function => "semantic function"
  | .argument => "semantic argument"
  | .composition => "semantic composition"
  | .category => "entity category"
  | .verb => "verb"
  | .invariable => "invariable term"
  | .pronoun => "pronoun"
  | .sequence => "term sequence"

inductive CostKind
  | own
  | penalty
  | insertion
  | transposition
deriving DecidableEq

def CostKind.label : CostKind → String
  | .own => "cost"
  | .penalty => "cost_penalty"
  | .insertion => "insertion_cost"
  | .transposition => "transposition_cost"

inductive WordClass
  | verb
  | invariable
  | pronoun
deriving DecidableEq

def WordClass.label : WordClass → String
  | .verb => "Verb"
  | .invariable => "Invariable"
  | .pronoun => "Pronoun"

/-- What is wrong with a declaration taken by itself. -/
inductive Defect (κ : Type)
  | unacceptableCost (kind : CostKind) (cost : κ)
  | emptyNamePart
  | emptySymbolName
  | rulesOfEmpty
  | rulesOfVocabulary (symbol : String)
  | notBinary (count : Nat)
  | childCount (symbol : String) (count : Nat)
  | placeholderInsertion (literal : String)
  | emptyRange (least greatest : Int)
  | unaryTransposition (symbol : String)
  | positionOutOfBounds (position : Nat) (symbol : String)
  | meaningName (name : String)
  | noParameters (name : String)
  | arityBounds (name : String) (least greatest : Nat)
  | alreadyReduced (meaning : Meaning)
  | categoryName (name : String)
  | noEntities (category : String)
  | vacantEntity (display category : String)
  | noAcceptedTerms
  | acceptedPenalty (symbol : String)
  | termLength (symbol : String) (count : Nat)
  | notVocabulary (term symbol : String)
  | wordClassMissing (symbol : String) (wordClass : WordClass)
deriving DecidableEq

inductive Fault (κ : Type)
  | illFormed (what : Declaration) (defect : Defect κ)
  | duplicateSymbol (name : String)
  | duplicateRule (symbol side : String)
  | malformedToken (literal symbol : String)
  | unknownSymbol (index : Nat)
  | arity (name : String) (least greatest given : Nat)
  | duplicateMeaning (name : String)
  | unknownFunction (name : String)
  | unused (findings : Unused)
  /-- A file could not be read or written. -/
  | storage
  /-- A text is not the written form of an artifact. -/
  | encoding
deriving DecidableEq

variable {κ : Type}

def Defect.message [WrittenCost κ] : Defect κ → String
  | .unacceptableCost kind cost =>
    s!"`{kind.label}` must be a finite, nonnegative number, got {WrittenCost.plain cost}"
  | .emptyNamePart => "name parts must be non-empty"
  | .emptySymbolName => "empty symbol name"
  | .rulesOfEmpty => "`<empty>` cannot have rules"
  | .rulesOfVocabulary symbol => s!"`{symbol}` is a term set and cannot take more rules"
  | .notBinary count => s!"expected 2 children, got {count}"
  | .childCount symbol count => s!"`{symbol}` has {count} children, expected 1 or 2"
  | .placeholderInsertion literal => s!"placeholder `{literal}` cannot be inserted"
  | .emptyRange least greatest => s!"integer range {least}..={greatest} is empty"
  | .unaryTransposition symbol => s!"transposition on unary rule of `{symbol}`"
  | .positionOutOfBounds position symbol =>
    s!"no-insertion index {position} out of bounds on `{symbol}`"
  | .meaningName name => s!"name `{name}` must be non-empty and without whitespace"
  | .noParameters name => s!"`{name}` must accept at least one argument"
  | .arityBounds name least greatest =>
    s!"`{name}` has min_params {least} above max_params {greatest}"
  | .alreadyReduced meaning => s!"`{meaning.toText}` is already reduced"
  | .categoryName name => s!"name `{name}` must be a non-empty word"
  | .noEntities category => s!"`{category}` has no entities"
  | .vacantEntity display category =>
    s!"entity `{display}` of `{category}` needs a display text and names"
  | .noAcceptedTerms => "no accepted terms"
  | .acceptedPenalty symbol => s!"accepted term of `{symbol}` has a cost penalty"
  | .termLength symbol count => s!"term of `{symbol}` has {count} symbols, expected 1 or 2"
  | .notVocabulary term symbol => s!"`{term}` in `{symbol}` is not a term set"
  | .wordClassMissing symbol wordClass =>
    s!"term of `{symbol}` has no {wordClass.label} term set"

/-- The message of a fault; faults of storage and encoding have none of their own. -/
def Fault.message? [WrittenCost κ] : Fault κ → Option String
  | .illFormed what defect => some s!"ill-formed {what.label}: {defect.message}"
  | .duplicateSymbol name => some s!"duplicate symbol `{name}`"
  | .duplicateRule symbol side => some s!"duplicate rule `{symbol} -> {side}`"
  | .malformedToken literal symbol =>
    some s!"malformed terminal `{literal}` on `{symbol}`: terminals must be a single token"
  | .unknownSymbol index => some s!"symbol #{index} does not belong to this grammar"
  | .arity name least greatest given =>
    some s!"semantic `{name}` accepts {least}..={greatest} arguments, but was given {given}"
  | .duplicateMeaning name => some s!"duplicate semantic `{name}`"
  | .unknownFunction name => some s!"unknown semantic function `{name}`"
  | .unused findings => some s!"grammar has unused components:\n{findings.report}"
  | .storage => none
  | .encoding => none

def requireCost [Cost κ] (what : Declaration) (kind : CostKind) (cost : κ) :
    Except (Fault κ) Unit :=
  if Cost.isAcceptable cost then .ok ()
  else .error (.illFormed what (.unacceptableCost kind cost))

def requireCost? [Cost κ] (what : Declaration) (kind : CostKind) (cost : Option κ) :
    Except (Fault κ) Unit :=
  match cost with
  | some cost => requireCost what kind cost
  | none => .ok ()

end PhraseGrammar
