import Mathlib.Algebra.Order.Ring.NNRat
import PhraseGrammar.Proofs.AuthoringOrder
import PhraseGrammar.Proofs.CompleteInsertion
import PhraseGrammar.Proofs.LeastFillers
import PhraseGrammar.Proofs.Provenance
import PhraseGrammar.Proofs.Splicing

/-! Which child a pair leaves out. Every round of insertion chooses again, and what earlier rounds
have chosen stays. Where sums are exact and no meaning waits for arguments, insertion rules make no
symbol cheaper to leave out, so that all rounds choose alike. Elsewhere a pair may come to leave out
either of its children. -/

namespace PhraseGrammar

open Std

variable {κ : Type} [Cost κ]

theorem NoDearer.antisymm [TransOrd κ] [LawfulEqOrd κ] {a b : κ} (ab : NoDearer a b)
    (ba : NoDearer b a) : a = b :=
  LawfulEqOrd.eq_of_compare (OrientedCmp.isLE_antisymm ab ba)

/-- Sums of charges do not depend on the order in which they are made. -/
structure SumsExact (κ : Type) [Cost κ] : Prop extends SumsGrow κ where
  zero_add : ∀ {a : κ}, IsCharge a → 0 + a = a
  right_comm : ∀ {a b c : κ}, IsCharge a → IsCharge b → IsCharge c → a + b + c = a + c + b

namespace SumsExact

variable {a b c : κ} (sums : SumsExact κ)

include sums

theorem add_zero (ha : IsCharge a) : a + 0 = a :=
  calc a + 0 = 0 + a + 0 := by rw [sums.zero_add ha]
    _ = 0 + 0 + a := sums.right_comm .zero ha .zero
    _ = a := by rw [sums.zero_add .zero, sums.zero_add ha]

theorem zero_noDearer (ha : IsCharge a) : NoDearer 0 a :=
  sums.zero_add ha ▸ sums.left .zero ha

theorem foldl_order (place : Place) (ha : IsCharge a) (hb : IsCharge b) (hc : IsCharge c) :
    (place.order b c).foldl (· + ·) a = (place.order 0 c).foldl (· + ·) (a + b) := by
  cases place with
  | first =>
    change a + b + c = a + b + 0 + c
    rw [sums.add_zero (ha.add hb)]
  | second =>
    change a + c + b = a + b + c + 0
    rw [sums.add_zero ((ha.add hb).add hc), sums.right_comm ha hb hc]

end SumsExact

theorem sumsExact_exact : SumsExact ℚ≥0 where
  toSumsGrow := Grammar.sumsGrow_exact
  zero_add _ := zero_add _
  right_comm _ _ _ := add_right_comm _ _ _

theorem Place.forall_mem_order {α : Type} {P : α → Prop} {place : Place} {mine other : α} :
    (∀ x ∈ place.order mine other, P x) ↔ P mine ∧ P other := by
  cases place <;> simp [Place.order, and_comm]

theorem Place.forall₂_order {α β : Type} {R : α → β → Prop} {place : Place} {mine other : α}
    {mine' other' : β} (first : R mine mine') (second : R other other') :
    List.Forall₂ R (place.order mine other) (place.order mine' other') := by
  cases place with
  | first => exact .cons first (.cons second .nil)
  | second => exact .cons second (.cons first .nil)

theorem PhraseRule.charge_eliding {rule : PhraseRule κ} {pair : Slot × Slot} {place : Place}
    {filler : Filler κ} {cost : κ} :
    (rule.eliding pair place filler).charge [cost] =
      (place.order 0 cost).foldl (· + ·) (rule.cost + filler.cost) := by
  cases place <;> rfl

def Rule.IsReduced : Rule κ → Prop
  | .word _ => True
  | .phrase rule => ∀ meaning ∈ rule.meaning, meaning.isReduced = true

namespace Grammar

variable {grammar grown left : Grammar κ} {symbol : Symbol} {cost : κ} {rule : PhraseRule κ}
  {pair : Slot × Slot} {place : Place} {gone kept : κ}

structure SlotFilledAt (grammar : Grammar κ) (rule : PhraseRule κ) (slot : Slot) (position : Nat)
    (cost : κ) : Prop where
  allowed : rule.allowsInsertion slot position = true
  skipped : slot.optional = true → cost = 0
  filled : slot.optional = false → grammar.FilledAt slot.symbol cost

namespace SlotFilledAt

variable {slot : Slot} {position : Nat}

theorem of_optional (allowed : rule.allowsInsertion slot position = true)
    (optional : slot.optional = true) : grammar.SlotFilledAt rule slot position 0 :=
  ⟨allowed, fun _ => rfl, fun needed => nomatch optional.symm.trans needed⟩

theorem of_needed (allowed : rule.allowsInsertion slot position = true)
    (needed : slot.optional = false) (filled : grammar.FilledAt slot.symbol cost) :
    grammar.SlotFilledAt rule slot position cost :=
  ⟨allowed, fun optional => (nomatch optional.symm.trans needed), fun _ => filled⟩

theorem isCharge (charges : grammar.Obeys Rule.Charges Filler.Charges)
    (h : grammar.SlotFilledAt rule slot position cost) : IsCharge cost := by
  cases optional : slot.optional with
  | true => exact h.skipped optional ▸ .zero
  | false => exact (h.filled optional).isCharge charges

theorem of_slotFiller? {best : Fillers κ} {filler : Filler κ}
    (held : best.All fun symbol filler => grammar.FilledAt symbol filler.cost)
    (found : rule.slotFiller? best slot position = some filler) :
    grammar.SlotFilledAt rule slot position filler.cost := by
  obtain ⟨allowed, -⟩ := PhraseRule.slotFiller?_isSome.mp (Option.isSome_iff_exists.mpr ⟨_, found⟩)
  rw [PhraseRule.slotFiller?, allowed] at found
  cases optional : slot.optional with
  | true =>
    rw [optional] at found
    exact Option.some.inj found ▸ of_optional allowed optional
  | false =>
    rw [optional] at found
    exact of_needed allowed optional (held _ _ found)

end SlotFilledAt

theorem FilledAt.of_slots {costOf : Slot × Nat → κ} (mem : .phrase rule ∈ grammar.rulesOf symbol)
    (origin : rule.origin ≠ .transposition) (abridged : rule.unabridged = false)
    (filled : ∀ place ∈ rule.slots.zipIdx,
      grammar.SlotFilledAt rule place.1 place.2 (costOf place)) :
    grammar.FilledAt symbol (rule.charge (rule.slots.zipIdx.map costOf)) :=
  .composed mem origin abridged (fun place there => (filled place there).allowed)
    (fun place there => (filled place there).skipped)
    fun place there => (filled place there).filled

theorem FilledAt.of_pair (mem : .phrase rule ∈ grammar.rulesOf symbol)
    (authored : rule.origin = .authored) (abridged : rule.unabridged = false)
    (whole : rule.elided = none) (slots : rule.slots = [pair.1, pair.2])
    (lost : grammar.SlotFilledAt rule (place.of pair) place.position gone)
    (stays : grammar.SlotFilledAt rule (place.other.of pair) place.other.position kept) :
    grammar.FilledAt symbol ((place.order gone kept).foldl (· + ·) rule.cost) := by
  let costOf : Slot × Nat → κ := fun slot => if slot.2 = place.position then gone else kept
  have filled : ∀ slot ∈ rule.slots.zipIdx,
      grammar.SlotFilledAt rule slot.1 slot.2 (costOf slot) := by
    rintro ⟨slot, position⟩ there
    obtain ⟨here, rfl, rfl⟩ := (PhraseRule.mem_zipIdx_of_pair slots).mp there
    cases here <;> cases place <;> assumption
  have charge : rule.charge (rule.slots.zipIdx.map costOf) =
      (place.order gone kept).foldl (· + ·) rule.cost := by
    rw [PhraseRule.charge, PhraseRule.withGap, whole, slots]
    cases place <;> rfl
  have origin : rule.origin ≠ .transposition := by
    rw [authored]
    decide
  exact charge ▸ .of_slots mem origin abridged filled

theorem Stage.fillers [TransOrd κ] (grammar : Grammar κ) : grammar.Stage grammar.fillers :=
  fillers_eq_iterate grammar ▸ .passes grammar _

/-- Of an authored pair the child at a place may be left out with a filler, which costs no less than
one of the ways to leave it out. -/
structure MayElide (grammar : Grammar κ) (symbol : Symbol) (rule : PhraseRule κ)
    (pair : Slot × Slot) (place : Place) (filler : Filler κ) : Prop where
  mem : .phrase rule ∈ grammar.rulesOf symbol
  authored : rule.origin = .authored
  slots : rule.slots = [pair.1, pair.2]
  charge : IsCharge filler.cost
  atLeast : ∃ less, grammar.SlotFilledAt rule (place.of pair) place.position less ∧
    NoDearer less filler.cost

section Shortcuts

variable [TransOrd κ] (charges : grammar.Obeys Rule.Charges Filler.Charges)

include charges

theorem exists_filledAt_of_slots (sums : SumsGrow κ) {costOf : Slot × Nat → κ}
    (mem : .phrase rule ∈ grammar.rulesOf symbol) (origin : rule.origin ≠ .transposition)
    (abridged : rule.unabridged = false)
    (all : ∀ cost ∈ rule.slots.zipIdx.map costOf, IsCharge cost)
    (filled : ∀ place ∈ rule.slots.zipIdx, ∃ less,
      grammar.SlotFilledAt rule place.1 place.2 less ∧ NoDearer less (costOf place)) :
    ∃ less, grammar.FilledAt symbol less ∧
      NoDearer less (rule.charge (rule.slots.zipIdx.map costOf)) := by
  choose! lessOf filled below using filled
  refine ⟨_, .of_slots mem origin abridged filled, ?_⟩
  refine PhraseRule.charge_mono sums (charges.rules _ _ mem).own
    (List.forall_mem_map.mpr fun place there => (filled place there).isCharge charges) all ?_
  rw [List.forall₂_map_left_iff, List.forall₂_map_right_iff, List.forall₂_same]
  exact below

/-- The rule that leaves out one child of a pair charges for the other one what the pair would for
both. -/
theorem MayElide.exists_filledAt {filler : Filler κ} (sums : SumsExact κ)
    (whole : grammar.AllRules Rule.IsWhole)
    (h : grammar.MayElide symbol rule pair place filler) (charge : IsCharge kept)
    (remains : ∃ less,
      grammar.SlotFilledAt rule (place.other.of pair) place.other.position less ∧
        NoDearer less kept) :
    ∃ less, grammar.FilledAt symbol less ∧
      NoDearer less ((rule.eliding pair place filler).charge [kept]) := by
  obtain ⟨lost, goes, gone_least⟩ := h.atLeast
  obtain ⟨left, stays, kept_least⟩ := remains
  have own := (charges.rules _ _ h.mem).own
  refine ⟨_, .of_pair h.mem h.authored (PhraseRule.unabridged_of_allowsInsertion goes.allowed)
    (whole _ _ h.mem h.authored) h.slots goes stays, ?_⟩
  rw [PhraseRule.charge_eliding, ← sums.foldl_order place own h.charge charge]
  refine sums.foldl own own (.refl _) ?_ ?_ (Place.forall₂_order gone_least kept_least)
  · exact Place.forall_mem_order.mpr ⟨goes.isCharge charges, stays.isCharge charges⟩
  · exact Place.forall_mem_order.mpr ⟨h.charge, charge⟩

end Shortcuts

/-- Only rules that leave out a child have come to a grammar, and none has gone. -/
structure Abridges (left grown : Grammar κ) : Prop where
  bare : grown.bare = left.bare
  kept : ∀ symbol, ∀ rule ∈ left.rulesOf symbol, rule ∈ grown.rulesOf symbol
  made : ∀ symbol, ∀ rule ∈ grown.rulesOf symbol, rule ∈ left.rulesOf symbol ∨
    ∃ source pair place filler, left.MayElide symbol source pair place filler ∧
      rule = .phrase (source.eliding pair place filler)

namespace Abridges

theorem refl (left : Grammar κ) : left.Abridges left :=
  ⟨rfl, fun _ _ => id, fun _ _ => .inl⟩

theorem filledAt (h : left.Abridges grown) (filled : left.FilledAt symbol cost) :
    grown.FilledAt symbol cost := by
  induction filled with
  | empty => exact .empty
  | zeroFiller known => exact .zeroFiller ((zeroFiller?_eq_of_bare h.bare _).trans known)
  | word mem given => exact .word (h.kept _ _ mem) given
  | declared mem origin abridged given => exact .declared (h.kept _ _ mem) origin abridged given
  | composed mem origin abridged allowed optional _ ih =>
    exact .composed (h.kept _ _ mem) origin abridged allowed optional ih

theorem authored_mem (h : left.Abridges grown) (mem : .phrase rule ∈ grown.rulesOf symbol)
    (authored : rule.origin = .authored) : .phrase rule ∈ left.rulesOf symbol := by
  rcases h.made _ _ mem with old | ⟨_, _, _, _, -, same⟩
  · exact old
  · exact nomatch Rule.phrase.inj same ▸ authored

section Rounds

variable [TransOrd κ] (sums : SumsExact κ) (charges : left.Obeys Rule.Charges Filler.Charges)
  (whole : left.AllRules Rule.IsWhole)

include sums charges whole

/-- No way to leave a symbol out has become cheaper. -/
theorem exists_filledAt (h : left.Abridges grown)
    (after : grown.Obeys Rule.Charges Filler.Charges) (filled : grown.FilledAt symbol cost) :
    ∃ less, left.FilledAt symbol less ∧ NoDearer less cost := by
  induction filled with
  | empty => exact ⟨_, .empty, .refl _⟩
  | zeroFiller known =>
    exact ⟨_, .zeroFiller ((zeroFiller?_eq_of_bare h.bare _).symm.trans known), .refl _⟩
  | word mem given =>
    rcases h.made _ _ mem with old | ⟨_, _, _, _, -, same⟩
    · exact ⟨_, .word old given, .refl _⟩
    · exact nomatch same
  | declared mem origin abridged given =>
    rcases h.made _ _ mem with old | ⟨_, _, _, _, -, same⟩
    · exact ⟨_, .declared old origin abridged given, .refl _⟩
    · exact nomatch Rule.phrase.inj same ▸ given
  | composed mem origin abridged allowed optional needed ih =>
    rcases h.made _ _ mem with old | ⟨source, pair, place, filler, elides, same⟩
    · have all := FilledAt.isCharge_places optional fun place there needs =>
        (needed place there needs).isCharge after
      refine exists_filledAt_of_slots charges sums.toSumsGrow old origin abridged all
        fun place there => ?_
      cases skipped : place.1.optional with
      | true =>
        exact ⟨_, optional place there skipped ▸ .of_optional (allowed place there) skipped,
          .refl _⟩
      | false =>
        obtain ⟨less, filled, below⟩ := ih place there skipped
        exact ⟨less, .of_needed (allowed place there) skipped filled, below⟩
    · -- The pair that the rule was made of does as well, with the child that is gone.
      obtain rfl := Rule.phrase.inj same
      have here : ({ place.other.of pair with optional := false }, 0) ∈
          (source.eliding pair place filler).slots.zipIdx :=
        PhraseRule.mem_zipIdx_eliding.mpr ⟨rfl, rfl⟩
      have stays := PhraseRule.allowsInsertion_eliding.symm.trans (allowed _ here)
      have charge := (needed _ here rfl).isCharge after
      refine elides.exists_filledAt charges sums whole charge ?_
      cases skipped : (place.other.of pair).optional with
      | true => -- The child can no longer be absent, which it could be at no cost.
        exact ⟨0, .of_optional stays skipped, sums.zero_noDearer charge⟩
      | false =>
        obtain ⟨less, filled, below⟩ := ih _ here rfl
        exact ⟨less, .of_needed stays skipped filled, below⟩

theorem exists_slotFilledAt {slot : Slot} {position : Nat} (h : left.Abridges grown)
    (after : grown.Obeys Rule.Charges Filler.Charges)
    (filled : grown.SlotFilledAt rule slot position cost) :
    ∃ less, left.SlotFilledAt rule slot position less ∧ NoDearer less cost := by
  cases optional : slot.optional with
  | true =>
    rw [filled.skipped optional]
    exact ⟨0, .of_optional filled.allowed optional, .refl 0⟩
  | false =>
    obtain ⟨less, known, below⟩ :=
      h.exists_filledAt sums charges whole after (filled.filled optional)
    exact ⟨less, .of_needed filled.allowed optional known, below⟩

theorem of_offered (h : left.Abridges grown) (after : grown.Obeys Rule.Charges Filler.Charges)
    {made : PhraseRule κ} (offered : (symbol, made) ∈ grown.insertionOffers grown.fillers) :
    ∃ source pair place filler, left.MayElide symbol source pair place filler ∧
      made = source.eliding pair place filler := by
  obtain ⟨source, present, inserted⟩ := mem_insertionOffers.mp offered
  obtain ⟨authored, -, pair, place, filler, slots, chosen, rfl⟩ :=
    PhraseRule.insertion?_eq_some.mp inserted
  have found := (PhraseRule.cheaperPlace_iff_elects.mp chosen).fills
  have filled := SlotFilledAt.of_slotFiller? (Stage.fillers grown).filledAt found
  exact ⟨source, pair, place, filler, ⟨h.authored_mem present authored, authored, slots,
    filled.isCharge after, h.exists_slotFilledAt sums charges whole after filled⟩, rfl⟩

variable (plain : left.AllRules fun rule => rule.origin ≠ .insertion)

include plain

theorem insertionRound (h : left.Abridges grown)
    (after : grown.Obeys Rule.Charges Filler.Charges) :
    left.Abridges grown.insertionRound.1 where
  bare := (bare_insertWith _).trans h.bare
  kept symbol rule mem := mem_insertWith (h.kept symbol rule mem) (plain symbol rule mem)
  made symbol rule mem := by
    rcases of_mem_insertWith mem with old | ⟨_, rfl, offered⟩
    · exact h.made symbol rule old
    · obtain ⟨source, pair, place, filler, elides, rfl⟩ :=
        h.of_offered sums charges whole after offered
      exact .inr ⟨source, pair, place, filler, elides, rfl⟩

theorem afterRounds (rounds : Nat) :
    left.Abridges (left.afterRounds rounds) ∧
      (left.afterRounds rounds).Obeys Rule.Charges Filler.Charges :=
  afterRounds_induction
    (Q := fun grown => left.Abridges grown ∧ grown.Obeys Rule.Charges Filler.Charges)
    (fun ⟨h, after⟩ => ⟨h.insertionRound sums charges whole plain after,
      after.insertionRound (hereditary_charges _)⟩) ⟨.refl left, charges⟩ rounds

end Rounds

end Abridges

structure IsDirect (grammar : Grammar κ) : Prop where
  sound : grammar.IsSound
  charges : grammar.Obeys Rule.Charges Filler.Charges
  reduced : grammar.AllRules Rule.IsReduced

namespace IsDirect

theorem collapseRound (h : grammar.IsDirect) : grammar.collapseRound.1.IsDirect where
  sound := h.sound.collapseRound
  charges := h.charges.collapseRound (hereditary_charges _)
  reduced := h.reduced.collapseRound fun _ reduced => reduced

theorem insertionRound (h : grammar.IsDirect) : grammar.insertionRound.1.IsDirect where
  sound := h.sound.insertionRound
  charges := h.charges.insertionRound (hereditary_charges _)
  reduced := h.reduced.insertionRound fun _ _ reduced _ _ => reduced

variable [TransOrd κ]

theorem atMost_fillers {other : Grammar κ} {filler : Filler κ} (h : grammar.IsDirect)
    (sums : SumsGrow κ) (cheaper : ∀ cost, other.FilledAt symbol cost →
      ∃ less, grammar.FilledAt symbol less ∧ NoDearer less cost)
    (found : other.fillers.of? symbol = some filler) :
    grammar.fillers.AtMost symbol filler.cost := by
  obtain ⟨less, filled, below⟩ := cheaper _ ((Stage.fillers other).filledAt _ _ found)
  obtain ⟨given, there, least⟩ :=
    settled_fillers sums h.sound h.charges (fun _ _ => h.reduced _ _) symbol less filled
  exact ⟨given, there, least.trans below⟩

end IsDirect

end Grammar

namespace Fillers

def cost? (best : Fillers κ) (symbol : Symbol) : Option κ :=
  (best.of? symbol).map (·.cost)

theorem cost?_eq_of_atMost [TransOrd κ] [LawfulEqOrd κ] {best other : Fillers κ} {symbol : Symbol}
    (there : ∀ {filler}, best.of? symbol = some filler → other.AtMost symbol filler.cost)
    (here : ∀ {filler}, other.of? symbol = some filler → best.AtMost symbol filler.cost) :
    best.cost? symbol = other.cost? symbol := by
  cases found : best.of? symbol with
  | none =>
    cases found' : other.of? symbol with
    | none => rw [cost?, cost?, found, found']
    | some filler =>
      obtain ⟨_, same, -⟩ := here found'
      exact nomatch found.symm.trans same
  | some filler =>
    obtain ⟨filler', found', below⟩ := there found
    obtain ⟨_, same, above⟩ := here found'
    obtain rfl := Option.some.inj (found.symm.trans same)
    rw [cost?, cost?, found, found', Option.map_some, Option.map_some, above.antisymm below]

end Fillers

namespace Grammar

variable {grammar grown left : Grammar κ} [TransOrd κ] [LawfulEqOrd κ]

/-- Where all ways to leave out children are as cheap as before, so are the fillers. -/
theorem Abridges.cost?_fillers (h : left.Abridges grown) (sums : SumsExact κ)
    (before : left.IsDirect) (after : grown.IsDirect) (whole : left.AllRules Rule.IsWhole)
    (symbol : Symbol) : grown.fillers.cost? symbol = left.fillers.cost? symbol :=
  Fillers.cost?_eq_of_atMost
    (before.atMost_fillers sums.toSumsGrow fun _ =>
      h.exists_filledAt sums before.charges whole after.charges)
    (after.atMost_fillers sums.toSumsGrow fun cost filled =>
      ⟨cost, h.filledAt filled, .refl cost⟩)

theorem IsDirect.cost?_afterRounds (h : left.IsDirect) (sums : SumsExact κ)
    (whole : left.AllRules Rule.IsWhole)
    (plain : left.AllRules fun rule => rule.origin ≠ .insertion) (rounds : Nat) (symbol : Symbol) :
    (left.afterRounds rounds).fillers.cost? symbol = left.fillers.cost? symbol :=
  (Abridges.afterRounds sums h.charges whole plain rounds).1.cost?_fillers sums h
    (afterRounds_induction IsDirect.insertionRound h rounds) whole symbol

end Grammar

theorem Place.position_inj {a b : Place} : a.position = b.position ↔ a = b := by
  cases a <;> cases b <;> decide

namespace PhraseRule

variable {rule : PhraseRule κ} {best other : Fillers κ} {pair : Slot × Slot} {place : Place}
  {filler : Filler κ}

theorem Elects.unique [OrientedOrd κ] {place' : Place} {filler' : Filler κ}
    (a : rule.Elects best pair place filler) (b : rule.Elects best pair place' filler') :
    place = place' ∧ filler = filler' :=
  Prod.mk.inj (Option.some.inj
    ((cheaperPlace_iff_elects.mpr a).symm.trans (cheaperPlace_iff_elects.mpr b)))

theorem exists_slotFiller? {slot : Slot} {position : Nat}
    (same : ∀ symbol, best.cost? symbol = other.cost? symbol)
    (found : rule.slotFiller? best slot position = some filler) :
    ∃ filler', rule.slotFiller? other slot position = some filler' ∧
      filler'.cost = filler.cost := by
  unfold slotFiller? at found ⊢
  split
  case isTrue kept => exact nomatch (if_pos kept).symm.trans found
  case isFalse allowed =>
    rw [if_neg allowed] at found
    split
    case isTrue optional =>
      rw [if_pos optional] at found
      exact ⟨_, rfl, Option.some.inj found ▸ rfl⟩
    case isFalse needed =>
      rw [if_neg needed] at found
      have cost : other.cost? slot.symbol = some filler.cost := by
        rw [← same, Fillers.cost?, found, Option.map_some]
      exact Option.map_eq_some_iff.mp cost

theorem Elects.congr (same : ∀ symbol, best.cost? symbol = other.cost? symbol)
    (elects : rule.Elects best pair place filler) :
    ∃ filler', rule.Elects other pair place filler' ∧ filler'.cost = filler.cost := by
  obtain ⟨filler', fills, cost⟩ := exists_slotFiller? same elects.fills
  refine ⟨filler', ⟨fills, fun rival' there => ?_⟩, cost⟩
  obtain ⟨rival, here, cost'⟩ := exists_slotFiller? (fun symbol => (same symbol).symm) there
  have precedes := elects.precedes rival here
  cases place with
  | first =>
    change Ord.compare filler'.cost rival'.cost = .lt
    rw [cost, ← cost']
    exact precedes
  | second =>
    change Ord.compare filler'.cost rival'.cost ≠ .gt
    rw [cost, ← cost']
    exact precedes

end PhraseRule

namespace Grammar

/-- An insertion rule of a symbol says that it leaves out the child of a pair at a place, with a
filler, and keeps the other child. -/
structure HasElision (grammar : Grammar κ) (symbol : Symbol) (pair : Slot × Slot) (place : Place)
    (gone : Filler κ) (made : PhraseRule κ) : Prop where
  mem : .phrase made ∈ grammar.rulesOf symbol
  origin : made.origin = .insertion
  kept : made.symbols = [(place.other.of pair).symbol]
  elided : made.elided = some ⟨place.position, (place.of pair).symbol, gone⟩

/-- There is one insertion rule of a pair at most, and it leaves out the child that the present
fillers elect, at its present cost. -/
structure ElidesOne (grammar : Grammar κ) (symbol : Symbol) (rule : PhraseRule κ)
    (pair : Slot × Slot) : Prop where
  one : ∀ {place place' gone gone' made made'},
    grammar.HasElision symbol pair place gone made →
    grammar.HasElision symbol pair place' gone' made' → made = made'
  elected : ∀ {place gone made}, grammar.HasElision symbol pair place gone made →
    ∃ filler, rule.Elects grammar.fillers pair place filler ∧ filler.cost = gone.cost

variable {grammar left : Grammar κ} {symbol : Symbol} {rule made : PhraseRule κ}
  {pair : Slot × Slot} {place : Place} {gone : Filler κ} {count : Nat}

theorem ElidesOne.of_elected [OrientedOrd κ] (apart : Rule.Apart (grammar.rulesOf symbol))
    (elected : ∀ {place gone made}, grammar.HasElision symbol pair place gone made →
      ∃ filler, rule.Elects grammar.fillers pair place filler ∧ filler.cost = gone.cost) :
    grammar.ElidesOne symbol rule pair where
  one := by
    intro place place' gone gone' made made' h h'
    obtain ⟨_, elects, -⟩ := elected h
    obtain ⟨_, elects', -⟩ := elected h'
    obtain ⟨rfl, -⟩ := elects.unique elects'
    exact Rule.phrase.inj (apart.eq_of_side h.mem h'.mem
      (congrArg Side.phrase (h.kept.trans h'.kept.symm)))
  elected := elected

theorem fillers_derive (collapsed : grammar.collapse = (left, .ok count)) :
    grammar.derive.1.fillers = (left.afterRounds (left.size + 1)).fillers := by
  rw [derive_fst collapsed, (transposes_transpose _).fillers_eq]

theorem IsSound.authored_of_mem_derive (sound : left.IsSound)
    (collapsed : grammar.collapse = (left, .ok count)) (authored : rule.origin = .authored)
    (mem : .phrase rule ∈ grammar.derive.1.rulesOf symbol) :
    .phrase rule ∈ left.rulesOf symbol := by
  rcases sound.mem_derive_cases collapsed mem with old | inserted | ⟨other, -, swapped⟩
  · exact old
  · exact nomatch authored.symm.trans (origin_of_inserts inserted)
  · obtain ⟨-, _, _, -, -, rfl⟩ := PhraseRule.transposition?_eq_some.mp swapped
    cases authored

section Derivations

variable [TransOrd κ] [LawfulEqOrd κ] (collapsed : grammar.collapse = (left, .ok count))
  (sound : left.IsSound) (plain : left.AllRules fun rule => rule.origin ≠ .insertion)

include collapsed sound plain

/-- An insertion rule of a pair was made when a round elected the child that it leaves out. -/
theorem HasElision.elected (h : grammar.derive.1.HasElision symbol pair place gone made)
    (mem : .phrase rule ∈ left.rulesOf symbol) (slots : rule.slots = [pair.1, pair.2]) :
    ∃ n ≤ left.size, rule.Elects (left.afterRounds n).fillers pair place gone ∧
      made = rule.eliding pair place gone := by
  obtain ⟨n, before, source, there, inserted⟩ :=
    ((phrase_mem_derive collapsed sound plain h.origin).mp h.mem).offered
  obtain ⟨-, -, pair', place', gone', slots', chosen, rfl⟩ :=
    PhraseRule.insertion?_eq_some.mp inserted
  obtain ⟨position, lost, rfl⟩ := Elided.mk.inj (Option.some.inj h.elided)
  obtain rfl := Place.position_inj.mp position
  have stays : (place'.other.of pair').symbol = (place'.other.of pair).symbol :=
    List.singleton_inj.mp h.kept
  have symbols : source.symbols = rule.symbols := by
    rw [PhraseRule.symbols, PhraseRule.symbols, slots, slots']
    cases place' with
    | first => exact congrArg₂ (fun first second => [first, second]) lost stays
    | second => exact congrArg₂ (fun first second => [first, second]) stays lost
  obtain rfl := Rule.phrase.inj
    ((sound.apart symbol).eq_of_side there mem (congrArg Side.phrase symbols))
  obtain rfl := PhraseRule.pair_unique slots slots'
  exact ⟨n, Nat.le_of_lt_succ before, PhraseRule.cheaperPlace_iff_elects.mp chosen, rfl⟩

section Choices

variable (mem : .phrase rule ∈ left.rulesOf symbol) (slots : rule.slots = [pair.1, pair.2])

include mem slots

/-- There is one insertion rule of a pair, as the present fillers elect it, just when each choice
that stays is still the one to make. -/
theorem elidesOne_derive_iff :
    grammar.derive.1.ElidesOne symbol rule pair ↔
      ∀ n ≤ left.size, ∀ place gone, rule.Elects (left.afterRounds n).fillers pair place gone →
        .phrase (rule.eliding pair place gone) ∈ grammar.derive.1.rulesOf symbol →
        ∃ filler, rule.Elects grammar.derive.1.fillers pair place filler ∧
          filler.cost = gone.cost := by
  constructor
  · intro h n _ place gone _ stays
    exact h.elected ⟨stays, rfl, rfl, rfl⟩
  · intro h
    have apart : Rule.Apart (grammar.derive.1.rulesOf symbol) := by
      rw [derive_fst collapsed]
      exact (afterRounds_induction IsSound.insertionRound sound _).transpose.apart symbol
    refine .of_elected apart fun {place gone made} elision => ?_
    obtain ⟨n, few, elects, rfl⟩ := elision.elected collapsed sound plain mem slots
    exact h n few place gone elects elision.mem

omit sound in
/-- Where sums are exact and no meaning waits for arguments, all rounds make the same choice. -/
theorem IsDirect.elidesOne_derive (h : left.IsDirect) (sums : SumsExact κ)
    (whole : left.AllRules Rule.IsWhole) : grammar.derive.1.ElidesOne symbol rule pair := by
  refine (elidesOne_derive_iff collapsed h.sound plain mem slots).mpr
    fun n _ place gone elects _ => elects.congr fun symbol => ?_
  rw [fillers_derive collapsed, h.cost?_afterRounds sums whole plain,
    h.cost?_afterRounds sums whole plain]

end Choices

end Derivations

/-- After every run with plain rules and without a derivation, and a derivation that is not refused:
an authored pair has at most one insertion rule, which leaves out the child that the final fillers
elect at its final cost, just when this holds of each choice of a round whose rule stays. It does
where sums are exact and no meaning of a phrase waits for arguments. -/
theorem run_derive_elidesOne [TransOrd κ] [LawfulEqOrd κ] {operations : List (Operation κ)}
    {tally : Tally} (plain : ∀ operation ∈ operations, operation.IsPlain)
    (underived : .derive ∉ operations) (ok : (run operations).derive.2 = .ok tally)
    (mem : .phrase rule ∈ (run operations).derive.1.rulesOf symbol)
    (authored : rule.origin = .authored) (slots : rule.slots = [pair.1, pair.2]) :
    ((run operations).derive.1.ElidesOne symbol rule pair ↔
      ∀ n ≤ (run operations).size, ∀ place gone,
        rule.Elects ((run operations).collapse.1.afterRounds n).fillers pair place gone →
        .phrase (rule.eliding pair place gone) ∈ (run operations).derive.1.rulesOf symbol →
        ∃ filler, rule.Elects (run operations).derive.1.fillers pair place filler ∧
          filler.cost = gone.cost) ∧
      (SumsExact κ → (run operations).AllRules Rule.IsReduced →
        (run operations).derive.1.ElidesOne symbol rule pair) := by
  obtain ⟨count, done⟩ := exists_derive_ok_iff.mp ⟨tally, ok⟩
  have collapsed : (run operations).collapse = ((run operations).collapse.1, .ok count) :=
    Prod.ext rfl done
  obtain ⟨sound, uninserted⟩ := run_collapse_plain plain underived
  have left := sound.authored_of_mem_derive collapsed authored mem
  rw [← (collapse_names (run operations)).1]
  refine ⟨elidesOne_derive_iff collapsed sound uninserted left slots, fun sums reduced => ?_⟩
  have direct : (run operations).collapse.1.IsDirect :=
    collapse_induction .collapseRound ⟨.run operations, run_charges operations, reduced⟩
  have whole : (run operations).collapse.1.AllRules Rule.IsWhole :=
    collapse_induction (fun h => h.collapseRound fun _ _ => .of_origin nofun) (run_isWhole plain)
  exact direct.elidesOne_derive collapsed uninserted left slots sums whole

def listedOffers (grammar : Grammar κ) : List (Symbol × PhraseRule κ) :=
  grammar.phraseRules.filterMap fun (symbol, rule) =>
    (rule.insertion? grammar.fillers).map (symbol, ·)

def OffersInOrder (grammar : Grammar κ) : Prop :=
  grammar.listedOffers.Pairwise fun a b => (compareOffers grammar.nameOf a b).isLE = true

instance (grammar : Grammar κ) : Decidable grammar.OffersInOrder :=
  inferInstanceAs (Decidable (List.Pairwise _ _))

/-- A round of insertion that takes its offers as they come. -/
def listedRound (grammar : Grammar κ) : Grammar κ × Changes :=
  grammar.listedOffers.foldl offer (grammar, .none)

def afterListedRounds (grammar : Grammar κ) (rounds : Nat) : Grammar κ :=
  (fun grammar => grammar.listedRound.1)^[rounds] grammar

theorem insertionRound_of_inOrder (h : grammar.OffersInOrder) :
    grammar.insertionRound = grammar.listedRound :=
  congrArg (List.foldl offer (grammar, Changes.none)) (List.mergeSort_of_pairwise h)

theorem afterRounds_of_inOrder {rounds : Nat}
    (h : ∀ n < rounds, (grammar.afterListedRounds n).OffersInOrder) :
    grammar.afterRounds rounds = grammar.afterListedRounds rounds := by
  induction rounds with
  | zero => rfl
  | succ rounds ih =>
    rw [afterRounds_succ, ih fun n less => h n (Nat.lt_succ_of_lt less),
      insertionRound_of_inOrder (h rounds (Nat.lt_succ_self rounds))]
    exact (Function.iterate_succ_apply' (fun grammar => grammar.listedRound.1) rounds
      grammar).symm

/-- A derivation of a collapsed grammar ends with the first round that changes nothing. -/
theorem IsCollapsed.derive_settles {rounds : Nat} (h : grammar.IsCollapsed)
    (last : (grammar.afterRounds rounds).insertionRound.2 = .none) (few : rounds ≤ grammar.size) :
    (∃ tally, grammar.derive.2 = .ok tally ∧ tally.settled = true) ∧
      grammar.derive.1 = (grammar.afterRounds rounds).transpose.1 := by
  have collapsed := collapse_of_isCollapsed h
  have fixed : (grammar.afterRounds rounds).insertionRound.1 = grammar.afterRounds rounds :=
    congrArg Prod.fst (insertionRound_of_none last)
  obtain ⟨more, enough⟩ : ∃ more, grammar.size + 1 = more + rounds :=
    Nat.exists_eq_add_of_le' (Nat.le_succ_of_le few)
  refine ⟨?_, ?_⟩
  · rcases derive_eq grammar with ⟨left, fault, failed, -⟩ | ⟨left, count, same, done⟩
    · exact nomatch (Prod.mk.inj (collapsed.symm.trans failed)).2
    · obtain ⟨rfl, -⟩ := Prod.mk.inj (collapsed.symm.trans same)
      rw [done]
      exact ⟨_, rfl, insertionRounds_settles _ last (Nat.lt_succ_of_le few)⟩
  · have same : grammar.afterRounds (grammar.size + 1) = grammar.afterRounds rounds := by
      rw [enough, afterRounds, Function.iterate_add_apply]
      exact Function.iterate_fixed fixed more
    rw [derive_fst collapsed, same]

/-- What such a derivation comes to can be read off rounds that take offers as they come. -/
theorem IsCollapsed.derive_of_inOrder (h : grammar.IsCollapsed) (rounds : Nat)
    (inOrder : ∀ n ≤ rounds, (grammar.afterListedRounds n).OffersInOrder)
    (last : (grammar.afterListedRounds rounds).listedRound.2 = .none)
    (few : rounds ≤ grammar.size) :
    (∃ tally, grammar.derive.2 = .ok tally ∧ tally.settled = true) ∧
      grammar.derive.1 = (grammar.afterListedRounds rounds).transpose.1 := by
  have alike := afterRounds_of_inOrder fun n less => inOrder n (Nat.le_of_lt less)
  rw [← insertionRound_of_inOrder (inOrder rounds (Nat.le_refl _)), ← alike] at last
  rw [← alike]
  exact h.derive_settles last few

/-- A name is a rank with a title before it, if it has one, and a sentence is a name with a mark
before it. Each of the three words may be left out, the rank at no cost. -/
def rankedName (mark title : κ) (meaning : Option Meaning) : List (Operation κ) :=
  [.newSymbol ["mark"], .newSymbol ["name"], .newSymbol ["title"], .newSymbol ["rank"],
    .declareFunction "f" 0 2 2 false, .declareArgument "m" 0, .declareArgument "n" 0,
    .addRule ⟨2⟩ (.word { WordRule.ofLiteral "mark" with insertionCost := some mark }),
    .addRule ⟨4⟩ (.word { WordRule.ofLiteral "title" with
      insertionCost := some title, meaning := some (.argument "m") }),
    .addRule ⟨5⟩ (.word { WordRule.ofLiteral "rank" with
      insertionCost := some 0, meaning := some (.argument "n") }),
    .addRule ⟨3⟩ (.phrase { PhraseRule.ofSlots [{ Slot.ofSymbol ⟨4⟩ with optional := true },
      .ofSymbol ⟨5⟩] with meaning }),
    .addRule .start (.phrase (.ofSymbols [⟨2⟩, ⟨3⟩]))]

def markedName : Slot × Slot := (.ofSymbol ⟨2⟩, .ofSymbol ⟨3⟩)

theorem rankedName_isPlain (mark title : κ) (meaning : Option Meaning) :
    ∀ operation ∈ rankedName mark title meaning, operation.IsPlain := by
  simp only [rankedName, List.forall_mem_cons]
  exact ⟨trivial, trivial, trivial, trivial, trivial, trivial, trivial,
    Rule.isPlain_ofLiteral, Rule.isPlain_ofLiteral, Rule.isPlain_ofLiteral,
    Rule.isPlain_ofSlots, Rule.isPlain_ofSlots, List.forall_mem_nil _⟩

theorem derive_not_mem_rankedName (mark title : κ) (meaning : Option Meaning) :
    .derive ∉ rankedName mark title meaning := by
  simp [rankedName]

def plainName : List (Operation ℚ≥0) :=
  rankedName 1 1 none

/-- The name is left out at the cost of its rank alone, which is none, in all rounds. -/
theorem plainName_elidesOne :
    (∃ tally, (run plainName).derive.2 = .ok tally ∧ tally.settled = true) ∧
      (run plainName).derive.1.ElidesOne .start (.ofSymbols [⟨2⟩, ⟨3⟩]) markedName ∧
      (run plainName).derive.1.HasElision .start markedName .second
        ⟨0, [.fixed "rank"], [.argument "n"]⟩
        ((PhraseRule.ofSymbols [⟨2⟩, ⟨3⟩]).eliding markedName .second
          ⟨0, [.fixed "rank"], [.argument "n"]⟩) := by
  have collapsed : (run plainName).IsCollapsed := by
    unfold IsCollapsed
    decide +kernel
  obtain ⟨⟨tally, ok, settled⟩, derived⟩ := collapsed.derive_of_inOrder 1
    (by decide +kernel) (by decide +kernel) (by decide +kernel)
  have mem : .phrase (.ofSymbols [⟨2⟩, ⟨3⟩]) ∈ (run plainName).derive.1.rulesOf .start := by
    rw [derived]
    decide +kernel
  have unmeant : ∀ index < (run plainName).size, ∀ rule ∈ (run plainName).rulesOf ⟨index⟩,
      rule.isWord = true ∨ rule.meaning = none := by decide +kernel
  have reduced : (run plainName).AllRules Rule.IsReduced := by
    intro symbol rule mem
    cases rule with
    | word rule => exact trivial
    | phrase rule =>
      have none := (unmeant symbol.index (lt_size_of_mem_rulesOf mem) _ mem).resolve_left nofun
      exact fun meaning given => nomatch none.symm.trans given
  refine ⟨⟨tally, ok, settled⟩, ?_, ?_, rfl, rfl, rfl⟩
  · exact (run_derive_elidesOne (rankedName_isPlain _ _ _) (derive_not_mem_rankedName _ _ _) ok mem
      rfl rfl).2 sumsExact_exact reduced
  · rw [derived]
    decide +kernel

/-- A name means a function of its title and its rank. -/
def titledName : List (Operation Float) :=
  rankedName 2 1 (some (.apply "f" []))

/-- The name can be left out only once it has a rule in which the title is never absent. By then a
round has left out the mark; the next one leaves out the name, which is cheaper, and both rules
stay. -/
theorem titledName_not_elidesOne :
    (∀ operation ∈ titledName, operation.IsPlain) ∧ .derive ∉ titledName ∧
      (∃ tally, (run titledName).derive.2 = .ok tally ∧ tally.settled = true) ∧
      .phrase (.ofSymbols [⟨2⟩, ⟨3⟩]) ∈ (run titledName).derive.1.rulesOf .start ∧
      ¬ (run titledName).derive.1.ElidesOne .start (.ofSymbols [⟨2⟩, ⟨3⟩]) markedName := by
  have collapsed : (run titledName).IsCollapsed := by
    unfold IsCollapsed
    decide +kernel
  obtain ⟨settles, derived⟩ := collapsed.derive_of_inOrder 2
    (by decide +kernel) (by decide +kernel) (by decide +kernel)
  have elides : ∀ place gone,
      .phrase ((PhraseRule.ofSymbols [⟨2⟩, ⟨3⟩]).eliding markedName place gone) ∈
          (run titledName).derive.1.rulesOf .start →
        (run titledName).derive.1.HasElision .start markedName place gone
          ((PhraseRule.ofSymbols [⟨2⟩, ⟨3⟩]).eliding markedName place gone) :=
    fun place gone mem => ⟨mem, rfl, rfl, rfl⟩
  have mark := elides .first ⟨2, [.fixed "mark"], []⟩ (by
    rw [derived]
    decide +kernel)
  have name := elides .second ⟨1, [.fixed "title", .fixed "rank"],
    [.apply "f" [.argument "m", .argument "n"]]⟩ (by
      rw [derived]
      decide +kernel)
  refine ⟨rankedName_isPlain _ _ _, derive_not_mem_rankedName _ _ _, settles, ?_, fun h => ?_⟩
  · rw [derived]
    decide +kernel
  · have same := congrArg PhraseRule.symbols (h.one mark name)
    exact absurd same (by decide)

end Grammar

end PhraseGrammar
