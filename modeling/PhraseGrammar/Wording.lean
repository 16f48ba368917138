/-! Display texts. A fixed text is shown as it stands; verbs and pronouns bring all their forms,
of which the parser chooses. -/

namespace PhraseGrammar

/-- The forms of a verb that can be displayed. -/
structure VerbForms where
  oneSg : String
  threeSg : String
  pl : String
  past : String
deriving DecidableEq

structure PronounForms where
  nom : String
  obj : String
deriving DecidableEq

inductive Wording
  | fixed (text : String)
  | verb (forms : VerbForms)
  | pronoun (forms : PronounForms)
deriving DecidableEq

instance : Ord VerbForms :=
  ⟨compareLex (compareOn VerbForms.oneSg) <| compareLex (compareOn VerbForms.threeSg) <|
    compareLex (compareOn VerbForms.pl) (compareOn VerbForms.past)⟩

instance : Ord PronounForms :=
  ⟨compareLex (compareOn PronounForms.nom) (compareOn PronounForms.obj)⟩

/-- Fixed texts come first, then verbs, then pronouns. -/
def Wording.compare : Wording → Wording → Ordering
  | .fixed a, .fixed b => Ord.compare a b
  | .fixed _, _ => .lt
  | .verb _, .fixed _ => .gt
  | .verb a, .verb b => Ord.compare a b
  | .verb _, .pronoun _ => .lt
  | .pronoun a, .pronoun b => Ord.compare a b
  | .pronoun _, _ => .gt

instance : Ord Wording := ⟨Wording.compare⟩

end PhraseGrammar
