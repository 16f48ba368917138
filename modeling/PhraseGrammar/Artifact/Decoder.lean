import PhraseGrammar.Artifact.Basic
import PhraseGrammar.Artifact.Names
import PhraseGrammar.Json.Parser

/-! Reading artifacts. A reader takes the number of levels of arrays and objects that it may still
enter; parts that it does not know may be nested at will. -/

namespace PhraseGrammar

variable {κ : Type}

/-- Reads a value of which so many levels may be entered. -/
abbrev Reader (α : Type) := Nat → Json → Option α

namespace Reader

variable {α : Type}

/-- An artifact nests no deeper than this. -/
def levels : Nat := 127

def text : Reader String := fun _ value => value.text?

def flag : Reader Bool := fun _ value =>
  match value with
  | .bool b => some b
  | _ => none

def number (read : Numeral → Option α) : Reader α := fun _ value =>
  match value with
  | .number numeral => read numeral
  | _ => none

def nullable (read : Reader α) : Reader (Option α) := fun level value =>
  match value with
  | .null => some none
  | value => (read level value).map some

def list (read : Reader α) : Reader (List α)
  | level + 1, .array items => items.mapM (read level)
  | _, _ => none

/-- The names of members; a name that spells no text is none. -/
def named (members : List (Option String × Json)) : Option (List (String × Json)) :=
  members.mapM fun (name, value) => name.map (·, value)

/-- Of several members of one name the last one counts. -/
def table (read : Reader α) : Reader (Table α)
  | level + 1, .object members => do
    let entries ← (← named members).mapM fun (name, value) => (read level value).map (name, ·)
    return .ofList entries
  | _, _ => none

/-- A value that a word stands for, or an object with the word as the name of null. -/
def word (names : Names α) : Reader α
  | _, .string (some word) => names.ofWord? word
  | _ + 1, .object [(some word, .null)] => names.ofWord? word
  | _, _ => none

/-- The fields of a record: the members of an object that have a field's name, each at most once,
or the items of an array in the order of the fields. -/
def fields? (names : List String) : Json → Option (List (String × Json))
  | .object members => do
    let known := (← named members).filter fun member => names.contains member.1
    if (known.map (·.1)).Nodup then some known else none
  | .array items => if items.length ≤ names.length then some (names.zip items) else none
  | _ => none

def record (names : List String) (read : Nat → List (String × Json) → Option α) : Reader α
  | level + 1, value => (fields? names value).bind (read level)
  | 0, _ => none

def required (read : Reader α) (level : Nat) (fields : List (String × Json)) (name : String) :
    Option α :=
  (fields.lookup name).bind (read level)

def optional (read : Reader α) (missing : α) (level : Nat) (fields : List (String × Json))
    (name : String) : Option α :=
  match fields.lookup name with
  | some value => read level value
  | none => some missing

def maybe (read : Reader α) (level : Nat) (fields : List (String × Json)) (name : String) :
    Option (Option α) :=
  optional (nullable read) none level fields name

/-- The texts of a record that has all of its fields and no other. -/
def exactTexts? (names : List String) : Json → Option (List String)
  | .object members => do
    let entries ← named members
    if entries.length = names.length then
      names.mapM fun name => (entries.lookup name).bind Json.text?
    else none
  | .array items => if items.length = names.length then items.mapM Json.text? else none
  | _ => none

def verbForms? (value : Json) : Option VerbForms :=
  match exactTexts? ["oneSg", "threeSg", "pl", "past"] value with
  | some [oneSg, threeSg, pl, past] => some ⟨oneSg, threeSg, pl, past⟩
  | _ => none

def pronounForms? (value : Json) : Option PronounForms :=
  match exactTexts? ["nom", "obj"] value with
  | some [nom, obj] => some ⟨nom, obj⟩
  | _ => none

/-- The kind of a display text shows in its fields. -/
def wording : Reader Wording
  | _, .string text => text.map .fixed
  | _ + 1, value =>
    ((verbForms? value).map .verb).or ((pronounForms? value).map .pronoun)
  | 0, _ => none

/-- A meaning is an object of one member, named for the kind. The recursion goes down the levels. -/
def meaning : Reader Meaning
  | level + 1, .object [(some "arg", value)] => (text level value).map .argument
  | level + 1, .object [(some "entity", value)] => (text level value).map .entity
  | level + 3, .object [(some "apply", value)] => do
    let fields ← fields? ["function", "args"] value
    let function ← required text (level + 1) fields "function"
    match fields.lookup "args" with
    | some (.array items) => (items.mapM (meaning level)).map (.apply function)
    | _ => none
  | _, _ => none

def natural : Reader Nat := number Numeral.toWord?

def range : Reader IntRange :=
  record ["min", "max"] fun level fields => do
    return ⟨← required (number Numeral.toSignedWord?) level fields "min",
      ← required (number Numeral.toSignedWord?) level fields "max"⟩

def entity : Reader Entity :=
  record ["display", "names"] fun level fields => do
    return ⟨← required text level fields "display", ← required (list text) level fields "names"⟩

def category : Reader Category :=
  record ["symbol", "entities"] fun level fields => do
    return ⟨← required text level fields "symbol",
      ← required (list entity) level fields "entities"⟩

variable [WrittenCost κ]

def cost : Reader κ := number WrittenCost.ofNumeral?

def signature : Reader (Signature κ) :=
  record ["cost", "minParams", "maxParams", "commutative", "isArg"] fun level fields => do
    return {
      cost := ← required cost level fields "cost"
      least := ← optional natural 0 level fields "minParams"
      greatest := ← optional natural 0 level fields "maxParams"
      commutative := ← optional flag false level fields "commutative"
      isArgument := ← optional flag false level fields "isArg" }

def elided : Reader (ArtifactElided κ) :=
  record ["index", "symbol", "cost", "text", "semantics"] fun level fields => do
    return {
      position := ← required natural level fields "index"
      symbol := ← required text level fields "symbol"
      filler := {
        cost := ← required cost level fields "cost"
        text := ← optional (list wording) [] level fields "text"
        meanings := ← optional (list meaning) [] level fields "semantics" } }

def ruleFields : List String :=
  ["isTerminal", "rhs", "cost", "text", "tense", "insertionCost", "semantic", "grammaticalForm",
    "personNumber", "grammaticalCase", "acceptedTense", "transpositionCost", "origin",
    "insertion", "optionalIndexes", "noTextIndexes", "entity", "intRange"]

def agreement (level : Nat) (fields : List (String × Json)) : Option Agreement := do
  return {
    form := ← maybe (word VerbForm.names) level fields "grammaticalForm"
    person := ← maybe (word PersonNumber.names) level fields "personNumber"
    pronounCase := ← maybe (word PronounCase.names) level fields "grammaticalCase"
    tense := ← maybe (word Tense.names) level fields "acceptedTense" }

def rule : Reader (ArtifactRule κ) :=
  record ruleFields fun level fields => do
    return {
      isWord := ← optional flag false level fields "isTerminal"
      side := ← required (list text) level fields "rhs"
      cost := ← required cost level fields "cost"
      text := ← optional (list wording) [] level fields "text"
      tense := ← maybe (word Tense.names) level fields "tense"
      insertionCost := ← maybe cost level fields "insertionCost"
      meaning := ← maybe meaning level fields "semantic"
      agreement := ← agreement level fields
      transpositionCost := ← maybe cost level fields "transpositionCost"
      origin := ← optional (word Origin.names) .authored level fields "origin"
      elided := ← maybe elided level fields "insertion"
      optionalPositions := ← optional (list natural) [] level fields "optionalIndexes"
      silentPositions := ← optional (list natural) [] level fields "noTextIndexes"
      category := ← maybe text level fields "entity"
      range := ← maybe range level fields "intRange" }

def artifact : Reader (Artifact κ) :=
  record ["startSymbol", "grammar", "semantics", "entities"] fun level fields => do
    return {
      start := ← required text level fields "startSymbol"
      rules := ← required (table (list rule)) level fields "grammar"
      signatures := ← optional (table signature) .empty level fields "semantics"
      categories := ← optional (table category) .empty level fields "entities" }

end Reader

def Artifact.read [WrittenCost κ] (text : String) : Except (Fault κ) (Artifact κ) :=
  match (Json.parse? text).bind (Reader.artifact Reader.levels) with
  | some artifact => .ok artifact
  | none => .error .encoding

end PhraseGrammar
