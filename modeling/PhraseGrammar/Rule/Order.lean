import PhraseGrammar.Cost.Basic
import PhraseGrammar.Rule.Basic

/-! The orders by which one filler and one derived rule is chosen of several. -/

namespace PhraseGrammar

variable {κ : Type} [Cost κ]

/-- The cheaper filler comes first; of equally cheap ones that with fewer texts; then texts and
meanings decide. -/
def Filler.compare : Filler κ → Filler κ → Ordering :=
  compareLex (compareOn Filler.cost) <| compareLex (compareOn fun filler => filler.text.length) <|
    compareLex (compareOn Filler.text) (compareOn Filler.meanings)

instance : Ord (Filler κ) := ⟨Filler.compare⟩

omit [Cost κ] in
/-- Slots for one symbol are told apart by their marks. -/
def Slot.compareMarks : Slot → Slot → Ordering :=
  compareLex (compareOn Slot.optional) <| compareLex (compareOn Slot.required)
    (compareOn Slot.silent)

/-- Fillers of elided children decide only between rules that both have one. -/
def compareElided (a b : Option (Elided κ)) : Ordering :=
  match a, b with
  | some a, some b => a.filler.compare b.filler
  | _, _ => .eq

/-- The order of derived rules of one symbol with one right-hand side: the cheaper one first, then
the better filler, then all else that the rules carry. The place and the name of the elided child
come last. -/
def PhraseRule.compare (nameOf : Symbol → String) : PhraseRule κ → PhraseRule κ → Ordering :=
  compareLex (compareOn PhraseRule.cost) <|
    compareLex (fun a b => compareElided a.elided b.elided) <|
    compareLex (compareOn PhraseRule.meaning) <|
    compareLex (compareOn PhraseRule.text) <|
    compareLex (compareOn PhraseRule.agreement) <|
    compareLex (fun a b => List.compareLex Slot.compareMarks a.slots b.slots) <|
    compareLex (compareOn PhraseRule.requiredPositions) <|
    compareLex (compareOn fun rule => rule.elided.map (·.position))
      (compareOn fun rule => rule.elided.map fun elided => nameOf elided.symbol)

end PhraseGrammar
