import PhraseGrammar.Proofs.Synthesis

/-! The child of a pair that insertion leaves out: one that may be, and the cheaper one where both
may be. -/

namespace PhraseGrammar

open Std

variable {κ : Type} [Cost κ]

/-- The child at a place is left out sooner than the other one: it is cheaper, or the second of two
that cost the same. -/
def Place.Precedes (place : Place) (filler other : Filler κ) : Prop :=
  match place with
  | .first => Ord.compare filler.cost other.cost = .lt
  | .second => Ord.compare filler.cost other.cost ≠ .gt

instance (place : Place) (filler other : Filler κ) : Decidable (place.Precedes filler other) :=
  match place with
  | .first => inferInstanceAs (Decidable (Ord.compare filler.cost other.cost = .lt))
  | .second => inferInstanceAs (Decidable (Ord.compare filler.cost other.cost ≠ .gt))

namespace PhraseRule

variable {rule : PhraseRule κ} {best : Fillers κ} {pair : Slot × Slot} {place : Place}
  {filler : Filler κ}

/-- The child of a pair that is to be left out: one that may be, and sooner than the other child
where that may be left out as well. -/
structure Elects (rule : PhraseRule κ) (best : Fillers κ) (pair : Slot × Slot) (place : Place)
    (filler : Filler κ) : Prop where
  fills : rule.slotFiller? best (place.of pair) place.position = some filler
  precedes : ∀ other,
    rule.slotFiller? best (place.other.of pair) place.other.position = some other →
      place.Precedes filler other

omit [Cost κ] in
theorem pair_unique {other : Slot × Slot} (slots : rule.slots = [pair.1, pair.2])
    (slots' : rule.slots = [other.1, other.2]) : pair = other :=
  Option.some.inj ((pair?_eq_some.mpr slots).symm.trans (pair?_eq_some.mpr slots'))

section Oriented

variable [OrientedOrd κ]

theorem cheaperPlace_eq_some_iff (first second : Option (Filler κ)) :
    cheaperPlace first second = some (place, filler) ↔
      place.of (first, second) = some filler ∧
        ∀ other, place.other.of (first, second) = some other → place.Precedes filler other := by
  match first, second with
  | none, none => cases place <;> simp [cheaperPlace, Place.of]
  | some first, none => cases place <;> simp [cheaperPlace, Place.of, Place.other]
  | none, some second => cases place <;> simp [cheaperPlace, Place.of, Place.other]
  | some first, some second =>
    have turned : Ord.compare second.cost first.cost = .gt ↔
        Ord.compare first.cost second.cost = .lt := OrientedCmp.gt_iff_lt
    rw [cheaperPlace]
    by_cases less : Ord.compare first.cost second.cost = .lt
    · rw [if_pos (turned.mpr less)]
      cases place with
      | first =>
        constructor
        · rintro ⟨⟩
          exact ⟨rfl, fun other same => Option.some.inj same ▸ less⟩
        · rintro ⟨⟨⟩, -⟩
          rfl
      | second =>
        constructor
        · rintro ⟨⟩
        · rintro ⟨⟨⟩, precedes⟩
          exact absurd (turned.mpr less) (precedes first rfl)
    · rw [if_neg (mt turned.mp less)]
      cases place with
      | first =>
        constructor
        · rintro ⟨⟩
        · rintro ⟨⟨⟩, precedes⟩
          exact absurd (precedes second rfl) less
      | second =>
        constructor
        · rintro ⟨⟩
          exact ⟨rfl, fun other same => Option.some.inj same ▸ mt turned.mp less⟩
        · rintro ⟨⟨⟩, -⟩
          rfl

theorem cheaperPlace_iff_elects :
    cheaperPlace (rule.slotFiller? best pair.1 0) (rule.slotFiller? best pair.2 1) =
      some (place, filler) ↔ rule.Elects best pair place filler := by
  rw [cheaperPlace_eq_some_iff]
  cases place <;> exact ⟨fun h => ⟨h.1, h.2⟩, fun h => ⟨h.fills, h.precedes⟩⟩

omit [OrientedOrd κ] in
theorem isSome_cheaperPlace {first second : Option (Filler κ)}
    (fills : (place.of (first, second)).isSome = true) :
    (cheaperPlace first second).isSome = true := by
  unfold cheaperPlace
  split
  case h_1 => split <;> rfl
  case h_2 => rfl
  case h_3 => rfl
  case h_4 => cases place <;> exact fills

theorem exists_elects
    (fills : (rule.slotFiller? best (place.of pair) place.position).isSome = true) :
    ∃ place filler, rule.Elects best pair place filler := by
  have given : (place.of (rule.slotFiller? best pair.1 0, rule.slotFiller? best pair.2 1)).isSome =
      true := by
    cases place <;> exact fills
  obtain ⟨elected, chosen⟩ := Option.isSome_iff_exists.mp (isSome_cheaperPlace given)
  exact ⟨elected.1, elected.2, cheaperPlace_iff_elects.mp chosen⟩

/-- A pair offers the rule without the child that is elected. -/
structure Offers (source : PhraseRule κ) (best : Fillers κ) (made : PhraseRule κ) : Prop where
  authored : source.origin = .authored
  abridged : source.unabridged = false
  elects : ∃ pair place filler, source.slots = [pair.1, pair.2] ∧
    source.Elects best pair place filler ∧ source.eliding pair place filler = made

theorem insertion?_iff_offers {made : PhraseRule κ} :
    rule.insertion? best = some made ↔ rule.Offers best made := by
  simp only [insertion?_eq_some, cheaperPlace_iff_elects]
  exact ⟨fun ⟨authored, abridged, elects⟩ => ⟨authored, abridged, elects⟩,
    fun h => ⟨h.authored, h.abridged, h.elects⟩⟩

end Oriented

end PhraseRule

end PhraseGrammar
