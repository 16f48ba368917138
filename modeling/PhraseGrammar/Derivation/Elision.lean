import PhraseGrammar.Derivation.Vanishing

/-! Insertion rules: an authored pair one child of which has a filler also matches the other child
alone, at the cost of the filler. -/

namespace PhraseGrammar

variable {κ : Type} [Cost κ]

inductive Place
  | first
  | second
deriving DecidableEq

namespace Place

def position : Place → Nat
  | .first => 0
  | .second => 1

def other : Place → Place
  | .first => .second
  | .second => .first

def of {α : Type} (pair : α × α) : Place → α
  | .first => pair.1
  | .second => pair.2

end Place

namespace PhraseRule

omit [Cost κ] in
def pair? (rule : PhraseRule κ) : Option (Slot × Slot) :=
  match rule.slots with
  | [first, second] => some (first, second)
  | _ => none

/-- The rule that leaves out one child of a pair. The other child can no longer be absent. -/
def eliding (rule : PhraseRule κ) (pair : Slot × Slot) (place : Place) (filler : Filler κ) :
    PhraseRule κ :=
  { rule with
    slots := [{ place.other.of pair with optional := false }]
    cost := rule.cost + filler.cost
    transpositionCost := none
    insertionCost := none
    requiredPositions := remapPositions
      (fun i => if i = place.other.position then some 0 else none) rule.requiredPositions
    origin := .insertion
    elided := some ⟨place.position, (place.of pair).symbol, filler⟩ }

/-- The child of a pair that is left out, with its filler: the one whose filler is cheaper, and
the second of two that cost the same. -/
def cheaperPlace (first second : Option (Filler κ)) : Option (Place × Filler κ) :=
  match first, second with
  | some first, some second =>
    if Ord.compare second.cost first.cost = .gt then some (.first, first)
    else some (.second, second)
  | some first, none => some (.first, first)
  | none, some second => some (.second, second)
  | none, none => none

def insertion? (rule : PhraseRule κ) (best : Fillers κ) : Option (PhraseRule κ) :=
  if rule.origin = .authored ∧ !rule.unabridged then do
    let pair ← rule.pair?
    let (place, filler) ← cheaperPlace
      (rule.slotFiller? best pair.1 Place.first.position)
      (rule.slotFiller? best pair.2 Place.second.position)
    return rule.eliding pair place filler
  else none

end PhraseRule

/-- What became of a rule that was offered to a symbol. -/
inductive Offer
  | added
  | replaced
  | declined
deriving DecidableEq

/-- Whether an offered rule takes the place of a rule with the same right-hand side: only of an
insertion rule, and only when it is better. -/
def PhraseRule.supersedes (nameOf : Symbol → String) (rule : PhraseRule κ) : Rule κ → Bool
  | .word _ => false
  | .phrase present =>
    present.origin = .insertion && rule.compare nameOf present == .lt

/-- Offers a rule to the rules of a symbol. It comes last unless its right-hand side is there. -/
def offerRule (nameOf : Symbol → String) (rule : PhraseRule κ) :
    List (Rule κ) → List (Rule κ) × Offer
  | [] => ([.phrase rule], .added)
  | present :: rest =>
    if present.side = .phrase rule.symbols then
      if rule.supersedes nameOf present then (.phrase rule :: rest, .replaced)
      else (present :: rest, .declined)
    else
      let (rest, outcome) := offerRule nameOf rule rest
      (present :: rest, outcome)

namespace Grammar

/-- Offers are made by symbol and right-hand side, and the best of several comes first. -/
def compareOffers (nameOf : Symbol → String) (a b : Symbol × PhraseRule κ) : Ordering :=
  (compare a.1 b.1).then <| (compare a.2.symbols b.2.symbols).then <| a.2.compare nameOf b.2

def insertionOffers (grammar : Grammar κ) (best : Fillers κ) : List (Symbol × PhraseRule κ) :=
  let offers := grammar.phraseRules.filterMap fun (symbol, rule) =>
    (rule.insertion? best).map (symbol, ·)
  offers.mergeSort fun a b => (compareOffers grammar.nameOf a b).isLE

/-- The numbers of rules that a round added and replaced. -/
structure Changes where
  added : Nat
  replaced : Nat
deriving DecidableEq

namespace Changes

def none : Changes := ⟨0, 0⟩

def record (changes : Changes) : Offer → Changes
  | .added => { changes with added := changes.added + 1 }
  | .replaced => { changes with replaced := changes.replaced + 1 }
  | .declined => changes

end Changes

def offer (state : Grammar κ × Changes) (source : Symbol × PhraseRule κ) :
    Grammar κ × Changes :=
  let (grammar, changes) := state
  let (symbol, rule) := source
  let (rules, outcome) := offerRule grammar.nameOf rule (grammar.rulesOf symbol)
  (grammar.update symbol fun entry => { entry with rules }, changes.record outcome)

def insertWith (grammar : Grammar κ) (best : Fillers κ) : Grammar κ × Changes :=
  (grammar.insertionOffers best).foldl offer (grammar, .none)

def insertionRound (grammar : Grammar κ) : Grammar κ × Changes :=
  grammar.insertWith grammar.fillers

end Grammar

end PhraseGrammar
