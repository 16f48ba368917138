import PhraseGrammar.Rule.Basic

/-! The words by which artifacts name tenses, forms, persons, cases and origins. -/

namespace PhraseGrammar

/-- Values with the words that stand for them. -/
abbrev Names (α : Type) := List (α × String)

namespace Names

variable {α : Type}

def wordOf [DecidableEq α] (names : Names α) (x : α) : String :=
  (names.lookup x).getD ""

def ofWord? (names : Names α) (word : String) : Option α :=
  (names.find? fun entry => entry.2 == word).map (·.1)

end Names

def Tense.names : Names Tense := [(.present, "present"), (.past, "past")]

def VerbForm.names : Names VerbForm :=
  [(.infinitive, "infinitive"), (.participle, "participle"), (.past, "past")]

def PersonNumber.names : Names PersonNumber :=
  [(.oneSg, "oneSg"), (.threeSg, "threeSg"), (.pl, "pl")]

def PronounCase.names : Names PronounCase := [(.nom, "nom"), (.obj, "obj")]

def Origin.names : Names Origin :=
  [(.authored, "authored"), (.insertion, "insertion"), (.transposition, "transposition"),
    (.collapsed, "collapsed")]

end PhraseGrammar
