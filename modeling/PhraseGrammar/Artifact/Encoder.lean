import PhraseGrammar.Artifact.Basic
import PhraseGrammar.Artifact.Names
import PhraseGrammar.Json.Printer

/-! The JSON form of artifacts. Members come in a fixed order, and those that say nothing are left
out. -/

namespace PhraseGrammar

variable {κ : Type} [WrittenCost κ]

namespace Json

/-- A cost that is no number is null. -/
def ofCost (cost : κ) : Json :=
  match WrittenCost.numeral? cost with
  | some numeral => .number numeral
  | none => .null

omit [WrittenCost κ] in
def ofTexts (texts : List String) : Json := .array (texts.map text)

omit [WrittenCost κ] in
def ofName {α : Type} [DecidableEq α] (names : Names α) (x : α) : Json := text (names.wordOf x)

omit [WrittenCost κ] in
def always (name : String) (value : Json) : List (String × Json) := [(name, value)]

omit [WrittenCost κ] in
def whenSome {α : Type} (name : String) (encode : α → Json) : Option α → List (String × Json)
  | some x => [(name, encode x)]
  | none => []

omit [WrittenCost κ] in
def whenAny {α : Type} (name : String) (encode : α → Json) : List α → List (String × Json)
  | [] => []
  | x :: xs => [(name, .array ((x :: xs).map encode))]

omit [WrittenCost κ] in
def whenSet (name : String) : Bool → List (String × Json)
  | true => [(name, .bool true)]
  | false => []

omit [WrittenCost κ] in
def ofTable {α : Type} (encode : α → Json) (table : Table α) : Json :=
  record (table.entries.map fun entry => (entry.1, encode entry.2))

end Json

open Json

def Wording.toJson : Wording → Json
  | .fixed shown => text shown
  | .verb forms =>
    record [("oneSg", text forms.oneSg), ("threeSg", text forms.threeSg), ("pl", text forms.pl),
      ("past", text forms.past)]
  | .pronoun forms => record [("nom", text forms.nom), ("obj", text forms.obj)]

mutual

def Meaning.toJson : Meaning → Json
  | .apply f args =>
    record [("apply", record [("function", text f), ("args", .array (Meaning.toJsonAll args))])]
  | .argument name => record [("arg", text name)]
  | .entity category => record [("entity", text category)]

def Meaning.toJsonAll : List Meaning → List Json
  | [] => []
  | x :: xs => x.toJson :: Meaning.toJsonAll xs

end

def IntRange.toJson (range : IntRange) : Json :=
  record [("min", .ofInt range.least), ("max", .ofInt range.greatest)]

def ArtifactElided.toJson (elided : ArtifactElided κ) : Json :=
  record <|
    always "index" (.ofNat elided.position) ++
    always "symbol" (text elided.symbol) ++
    always "cost" (ofCost elided.filler.cost) ++
    whenAny "text" Wording.toJson elided.filler.text ++
    whenAny "semantics" Meaning.toJson elided.filler.meanings

def ArtifactRule.toJson (rule : ArtifactRule κ) : Json :=
  record <|
    whenSet "isTerminal" rule.isWord ++
    always "rhs" (ofTexts rule.side) ++
    always "cost" (ofCost rule.cost) ++
    whenAny "text" Wording.toJson rule.text ++
    whenSome "tense" (ofName Tense.names) rule.tense ++
    whenSome "insertionCost" ofCost rule.insertionCost ++
    whenSome "semantic" Meaning.toJson rule.meaning ++
    whenSome "grammaticalForm" (ofName VerbForm.names) rule.agreement.form ++
    whenSome "personNumber" (ofName PersonNumber.names) rule.agreement.person ++
    whenSome "grammaticalCase" (ofName PronounCase.names) rule.agreement.pronounCase ++
    whenSome "acceptedTense" (ofName Tense.names) rule.agreement.tense ++
    whenSome "transpositionCost" ofCost rule.transpositionCost ++
    (if rule.origin = .authored then []
      else always "origin" (ofName Origin.names rule.origin)) ++
    whenSome "insertion" ArtifactElided.toJson rule.elided ++
    whenAny "optionalIndexes" Json.ofNat rule.optionalPositions ++
    whenAny "noTextIndexes" Json.ofNat rule.silentPositions ++
    whenSome "entity" Json.text rule.category ++
    whenSome "intRange" IntRange.toJson rule.range

def Signature.toJson (signature : Signature κ) : Json :=
  record <|
    always "cost" (ofCost signature.cost) ++
    always "minParams" (.ofNat signature.least) ++
    always "maxParams" (.ofNat signature.greatest) ++
    whenSet "commutative" signature.commutative ++
    whenSet "isArg" signature.isArgument

def Entity.toJson (entity : Entity) : Json :=
  record [("display", text entity.display), ("names", ofTexts entity.names)]

def Category.toJson (category : Category) : Json :=
  record [("symbol", text category.symbol),
    ("entities", .array (category.entities.map Entity.toJson))]

namespace Artifact

def toJson (artifact : Artifact κ) : Json :=
  record [
    ("startSymbol", text artifact.start),
    ("grammar", ofTable (fun rules => .array (rules.map ArtifactRule.toJson)) artifact.rules),
    ("semantics", ofTable Signature.toJson artifact.signatures),
    ("entities", ofTable Category.toJson artifact.categories)]

def write (layout : JsonLayout) (artifact : Artifact κ) : String :=
  artifact.toJson.render layout

end Artifact

end PhraseGrammar
