import Mathlib.Algebra.Order.Ring.NNRat
import Mathlib.Data.Finset.Card
import PhraseGrammar.Cost.Exact
import PhraseGrammar.Proofs.Charges

/-! The cheapest ways to leave symbols out. Fillers spread from symbol to symbol in passes over the
rules, which may go round in circles; one pass more than there are symbols still finds for every
symbol a filler that costs no more than any way of leaving it out. The symbols are settled one after
another: of those for which a cheaper way is left, the one that is cheapest after a pass has found
its cheapest way. -/

namespace PhraseGrammar

open Std

variable {κ : Type} [Cost κ]

/-- A symbol may be left out at a cost: by itself, by a word or a phrase that declares so, or by a
phrase all of whose children may be left out. -/
inductive Grammar.FilledAt (grammar : Grammar κ) : Symbol → κ → Prop
  | empty : FilledAt grammar .empty 0
  | zeroFiller {symbol : Symbol} {filler : Filler κ} : grammar.zeroFiller? symbol = some filler →
      FilledAt grammar symbol filler.cost
  | word {symbol : Symbol} {rule : WordRule κ} {cost : κ} : .word rule ∈ grammar.rulesOf symbol →
      rule.insertionCost = some cost → FilledAt grammar symbol (cost + rule.penalty)
  | declared {symbol : Symbol} {rule : PhraseRule κ} {cost : κ} :
      .phrase rule ∈ grammar.rulesOf symbol → rule.origin ≠ .transposition →
      rule.unabridged = false → rule.insertionCost = some cost →
      FilledAt grammar symbol (cost + rule.cost)
  | composed {symbol : Symbol} {rule : PhraseRule κ} {costOf : Slot × Nat → κ} :
      .phrase rule ∈ grammar.rulesOf symbol → rule.origin ≠ .transposition →
      rule.unabridged = false →
      (∀ place ∈ rule.slots.zipIdx, rule.allowsInsertion place.1 place.2 = true) →
      (∀ place ∈ rule.slots.zipIdx, place.1.optional = true → costOf place = 0) →
      (∀ place ∈ rule.slots.zipIdx, place.1.optional = false →
        FilledAt grammar place.1.symbol (costOf place)) →
      FilledAt grammar symbol (rule.charge (rule.slots.zipIdx.map costOf))

namespace Grammar.FilledAt

variable {grammar : Grammar κ} {symbol : Symbol} {cost : κ}

theorem isCharge_places {places : List (Slot × Nat)} {costOf : Slot × Nat → κ}
    (optional : ∀ place ∈ places, place.1.optional = true → costOf place = 0)
    (needed : ∀ place ∈ places, place.1.optional = false → IsCharge (costOf place)) :
    ∀ cost ∈ places.map costOf, IsCharge cost := by
  refine List.forall_mem_map.mpr fun place there => ?_
  cases skipped : place.1.optional with
  | true => exact optional place there skipped ▸ .zero
  | false => exact needed place there skipped

theorem isCharge (h : grammar.Obeys Rule.Charges Filler.Charges)
    (filled : grammar.FilledAt symbol cost) : IsCharge cost := by
  induction filled with
  | empty => exact .zero
  | zeroFiller known => exact h.zeroFillers _ _ known
  | word mem given =>
    obtain ⟨penalty, insertion⟩ := h.rules _ _ mem
    exact (insertion _ given).add penalty
  | declared mem _ _ given => exact ((h.rules _ _ mem).insertion _ given).add (h.rules _ _ mem).own
  | composed mem _ _ _ optional _ ih =>
    exact PhraseRule.isCharge_charge (h.rules _ _ mem).own (isCharge_places optional ih)

theorem lt_size (sound : grammar.IsSound) (filled : grammar.FilledAt symbol cost) :
    symbol.index < grammar.size := by
  cases filled with
  | empty => exact lt_size_of_entryOf? sound.empty
  | zeroFiller known =>
    obtain ⟨entry, found, -⟩ := Option.bind_eq_some_iff.mp known
    exact lt_size_of_entryOf? found
  | word mem _ => exact lt_size_of_mem_rulesOf mem
  | declared mem _ _ _ => exact lt_size_of_mem_rulesOf mem
  | composed mem _ _ _ _ _ => exact lt_size_of_mem_rulesOf mem

end Grammar.FilledAt

namespace Fillers

/-- A symbol has a filler that costs no more than something. -/
def AtMost (best : Fillers κ) (symbol : Symbol) (cost : κ) : Prop :=
  ∃ filler, best.of? symbol = some filler ∧ NoDearer filler.cost cost

structure Improves (best better : Fillers κ) : Prop where
  length : better.length = best.length
  atMost : ∀ {symbol : Symbol} {cost : κ}, best.AtMost symbol cost → AtMost better symbol cost

theorem Improves.refl (best : Fillers κ) : best.Improves best :=
  ⟨rfl, id⟩

theorem Improves.trans {best better again : Fillers κ} (first : best.Improves better)
    (second : Improves better again) : best.Improves again :=
  ⟨second.length.trans first.length, fun known => second.atMost (first.atMost known)⟩

end Fillers

theorem Entry.exists_seed [TransOrd κ] {entry : Entry κ} {start : Option (Filler κ)}
    {filler : Filler κ} (own : filler ∈ start ∨ filler ∈ entry.zeroFiller ∨
      ∃ rule, .word rule ∈ entry.rules ∧ rule.filler? = some filler) :
    ∃ given, entry.seed start = some given ∧ NoDearer given.cost filler.cost := by
  obtain ⟨given, there, least⟩ : ∃ given ∈ entry.seed start, filler.compare given ≠ .lt := by
    refine Filler.exists_mem_foldl_offer ?_
    rw [List.mem_append, Option.mem_toList, List.mem_filterMap]
    exact own.imp_right (Or.imp_right fun ⟨rule, mem, made⟩ => ⟨.word rule, mem, made⟩)
  exact ⟨given, there, Filler.noDearer_of_ne_lt least⟩

omit [Cost κ] in
theorem Signatures.exists_reduce? (signatures : Signatures κ) {meaning : Option Meaning}
    (reduced : ∀ whole ∈ meaning, whole.isReduced = true) (children : List Meaning) :
    ∃ meanings, signatures.reduce? meaning children = some meanings := by
  unfold reduce?
  cases meaning with
  | none => exact ⟨_, rfl⟩
  | some whole => exact ⟨_, if_pos (by rw [reduced whole rfl]; rfl)⟩

namespace PhraseRule

variable {rule : PhraseRule κ} {signatures : Signatures κ} {item : Option VocabularyItem}
  {best : Fillers κ}

def slotCost (rule : PhraseRule κ) (best : Fillers κ) (place : Slot × Nat) : κ :=
  ((rule.slotFiller? best place.1 place.2).map (·.cost)).getD 0

theorem costs_of_parts? {parts : List (Filler κ)} (found : rule.parts? best = some parts) :
    parts.map (·.cost) = rule.slots.zipIdx.map (rule.slotCost best) := by
  rw [← List.forall₂_eq_eq_eq, List.forall₂_map_left_iff, List.forall₂_map_right_iff]
  refine (mapM_eq_some.mp found).flip.imp fun part place same => ?_
  obtain ⟨filler, given, rfl⟩ := Option.map_eq_some_iff.mp same
  rw [Slot.cost_quiet, slotCost, given]
  rfl

theorem slotCost_of_optional {place : Slot × Nat}
    (allowed : rule.allowsInsertion place.1 place.2 = true) (optional : place.1.optional = true) :
    rule.slotCost best place = 0 := by
  rw [slotCost, slotFiller?, allowed, optional]
  rfl

theorem slotCost_of_needed {place : Slot × Nat} {filler : Filler κ}
    (allowed : rule.allowsInsertion place.1 place.2 = true) (needed : place.1.optional = false)
    (given : best.of? place.1.symbol = some filler) : rule.slotCost best place = filler.cost := by
  rw [slotCost, slotFiller?, allowed, needed]
  simp only [Bool.not_true, Bool.false_eq_true, if_false, given, Option.map_some, Option.getD_some]

theorem exists_composedFiller? (signatures : Signatures κ)
    (reduced : ∀ meaning ∈ rule.meaning, meaning.isReduced = true)
    (filled : ∀ place ∈ rule.slots.zipIdx,
      (rule.slotFiller? best place.1 place.2).isSome = true) :
    ∃ filler, rule.composedFiller? signatures best = some filler ∧
      filler.cost = rule.charge (rule.slots.zipIdx.map (rule.slotCost best)) := by
  obtain ⟨parts, pairs⟩ := exists_forall₂ fun place there =>
    Option.isSome_iff_exists.mp
      ((Option.isSome_map (f := place.1.quiet)).trans (filled place there))
  have found : rule.parts? best = some parts := mapM_eq_some.mpr pairs
  obtain ⟨meanings, made⟩ := signatures.exists_reduce? reduced
    ((rule.withElided parts).flatMap (·.meanings))
  refine ⟨_, composedFiller?_eq_some.mpr ⟨parts, meanings, found, made, rfl⟩, ?_⟩
  rw [cost_withElided, costs_of_parts? found]

variable [TransOrd κ]

theorem exists_filler?_isLE {filler : Filler κ} (abridged : rule.unabridged = false)
    (offered : rule.declaredFiller? item = some filler ∨
      rule.composedFiller? signatures best = some filler) :
    ∃ given, rule.filler? signatures item best = some given ∧
      (given.compare filler).isLE = true := by
  have same : (filler.compare filler).isLE = true := ReflOrd.isLE_rfl (a := filler)
  unfold filler?
  rw [abridged]
  generalize rule.declaredFiller? item = declared, rule.composedFiller? signatures best = composed
    at offered
  match declared, composed with
  | none, none => exact nomatch offered
  | none, some composed =>
    obtain rfl := Option.some.inj (offered.resolve_left nofun)
    exact ⟨composed, rfl, same⟩
  | some declared, none =>
    obtain rfl := Option.some.inj (offered.resolve_right nofun)
    exact ⟨declared, rfl, same⟩
  | some declared, some composed =>
    by_cases less : (declared.compare composed).isLE = true
    · refine ⟨declared, if_pos less, ?_⟩
      rcases offered with here | here
      · exact Option.some.inj here ▸ ReflOrd.isLE_rfl (a := declared)
      · exact Option.some.inj here ▸ less
    · refine ⟨composed, if_neg less, ?_⟩
      rcases offered with here | here
      · refine Option.some.inj here ▸ Filler.compare_isLE_iff.mpr fun lt => less ?_
        exact lt ▸ rfl
      · exact Option.some.inj here ▸ ReflOrd.isLE_rfl (a := composed)

theorem exists_filler?_noDearer {filler : Filler κ} (abridged : rule.unabridged = false)
    (offered : rule.declaredFiller? item = some filler ∨
      rule.composedFiller? signatures best = some filler) :
    ∃ given, rule.filler? signatures item best = some given ∧
      NoDearer given.cost filler.cost := by
  obtain ⟨given, made, less⟩ := exists_filler?_isLE abridged offered
  exact ⟨given, made, Filler.noDearer_of_isLE less⟩

theorem exists_composedFiller?_noDearer (sums : SumsGrow κ) (charges : rule.Charges)
    (reduced : ∀ meaning ∈ rule.meaning, meaning.isReduced = true) {costOf : Slot × Nat → κ}
    (all : ∀ cost ∈ rule.slots.zipIdx.map costOf, IsCharge cost)
    (allowed : ∀ place ∈ rule.slots.zipIdx, rule.allowsInsertion place.1 place.2 = true)
    (optional : ∀ place ∈ rule.slots.zipIdx, place.1.optional = true → costOf place = 0)
    (known : ∀ place ∈ rule.slots.zipIdx, place.1.optional = false →
      best.AtMost place.1.symbol (costOf place))
    (found : best.All fun _ filler => IsCharge filler.cost) :
    ∃ filler, rule.composedFiller? signatures best = some filler ∧
      NoDearer filler.cost (rule.charge (rule.slots.zipIdx.map costOf)) := by
  have filled : ∀ place ∈ rule.slots.zipIdx,
      (rule.slotFiller? best place.1 place.2).isSome = true := by
    refine fun place there => slotFiller?_isSome.mpr ⟨allowed place there, fun needed => ?_⟩
    obtain ⟨filler, given, -⟩ := known place there needed
    exact given ▸ rfl
  obtain ⟨filler, made, cost⟩ := exists_composedFiller? signatures reduced filled
  have least : ∀ place ∈ rule.slots.zipIdx,
      IsCharge (rule.slotCost best place) ∧ NoDearer (rule.slotCost best place) (costOf place) := by
    intro place there
    cases skipped : place.1.optional with
    | true =>
      rw [slotCost_of_optional (allowed place there) skipped, optional place there skipped]
      exact ⟨.zero, .refl 0⟩
    | false =>
      obtain ⟨filler, given, least⟩ := known place there skipped
      rw [slotCost_of_needed (allowed place there) skipped given]
      exact ⟨found _ _ given, least⟩
  refine ⟨filler, made, cost ▸ charge_mono sums charges.own ?_ all ?_⟩
  · exact List.forall_mem_map.mpr fun place there => (least place there).1
  · rw [List.forall₂_map_left_iff, List.forall₂_map_right_iff, List.forall₂_same]
    exact fun place there => (least place there).2

end PhraseRule

namespace Grammar

variable {grammar : Grammar κ} {best better : Fillers κ} {symbol : Symbol} {cost : κ}
  {source : Symbol × PhraseRule κ}

/-- What a rule finds is a way of leaving its symbol out. -/
theorem filledAt_filler? {rule : PhraseRule κ} {filler : Filler κ}
    (mem : .phrase rule ∈ grammar.rulesOf symbol) (origin : rule.origin ≠ .transposition)
    (held : best.All fun symbol filler => grammar.FilledAt symbol filler.cost)
    (made : rule.filler? grammar.signatures (grammar.item? symbol) best = some filler) :
    grammar.FilledAt symbol filler.cost := by
  obtain ⟨abridged, declared | composed⟩ := PhraseRule.filler?_cases made
  · obtain ⟨cost, given, rfl⟩ := Option.map_eq_some_iff.mp declared
    exact .declared mem origin abridged given
  · obtain ⟨parts, meanings, found, -, rfl⟩ := PhraseRule.composedFiller?_eq_some.mp composed
    have filled : ∀ place ∈ rule.slots.zipIdx,
        rule.allowsInsertion place.1 place.2 = true ∧
          (place.1.optional = false → (best.of? place.1.symbol).isSome = true) := by
      intro place there
      have here := isSome_of_mapM found place there
      rwa [Option.isSome_map, PhraseRule.slotFiller?_isSome] at here
    rw [PhraseRule.cost_withElided, PhraseRule.costs_of_parts? found]
    refine .composed mem origin abridged (fun place there => (filled place there).1)
      (fun place there => PhraseRule.slotCost_of_optional (filled place there).1)
      fun place there needed => ?_
    obtain ⟨allowed, some⟩ := filled place there
    obtain ⟨filler, given⟩ := Option.isSome_iff_exists.mp (some needed)
    rw [PhraseRule.slotCost_of_needed allowed needed given]
    exact held _ _ given

/-- Fillers that passes come to: each is a way of leaving its symbol out, and none is dearer than
that which the symbol has by itself. -/
structure Stage (grammar : Grammar κ) (best : Fillers κ) : Prop where
  length : best.length = grammar.size
  filledAt : best.All fun symbol filler => grammar.FilledAt symbol filler.cost
  improves : grammar.seeds.Improves best

theorem Stage.seeds (grammar : Grammar κ) : grammar.Stage grammar.seeds where
  length := by rw [Grammar.seeds, List.length_map, List.length_zipIdx, size]
  filledAt := by
    refine all_seeds .empty .zeroFiller fun mem made => ?_
    obtain ⟨cost, given, rfl⟩ := Option.map_eq_some_iff.mp made
    exact .word mem given
  improves := .refl _

section Passes

variable [TransOrd κ]

theorem improves_improve (grammar : Grammar κ) (best : Fillers κ)
    (source : Symbol × PhraseRule κ) : best.Improves (grammar.improve best source) := by
  rw [improve_eq]
  split
  case h_1 => exact .refl best
  case h_2 candidate made =>
    split
    case isFalse => exact .refl best
    case isTrue wins =>
      refine ⟨List.length_set .., ?_⟩
      rintro symbol cost ⟨filler, found, least⟩
      rw [Fillers.AtMost, Fillers.of?_set]
      split
      case isFalse => exact ⟨filler, found, least⟩
      case isTrue here =>
        obtain rfl : source.1 = symbol := congrArg Symbol.mk here.1
        rw [found] at wins
        have less : candidate.compare filler = .lt := beq_iff_eq.mp wins
        exact ⟨candidate, rfl, (Filler.noDearer_of_isLE (less ▸ rfl)).trans least⟩

theorem exists_improve_isLE {filler : Filler κ} (known : source.1.index < best.length)
    (made : source.2.filler? grammar.signatures (grammar.item? source.1) best = some filler) :
    ∃ given, (grammar.improve best source).of? source.1 = some given ∧
      (given.compare filler).isLE = true := by
  rw [improve_eq, made]
  dsimp only
  split
  case isTrue wins =>
    refine ⟨filler, ?_, ReflOrd.isLE_rfl (a := filler)⟩
    rw [Fillers.of?_set, if_pos ⟨rfl, known⟩]
  case isFalse stays =>
    cases found : best.of? source.1 with
    | none => exact absurd (by rw [found]; rfl) stays
    | some current =>
      refine ⟨current, rfl, Filler.compare_isLE_iff.mpr fun less => stays ?_⟩
      rw [found]
      exact beq_iff_eq.mpr less

theorem atMost_improve {filler : Filler κ} (known : source.1.index < best.length)
    (made : source.2.filler? grammar.signatures (grammar.item? source.1) best = some filler) :
    (grammar.improve best source).AtMost source.1 filler.cost := by
  obtain ⟨given, found, less⟩ := exists_improve_isLE known made
  exact ⟨given, found, Filler.noDearer_of_isLE less⟩

namespace Stage

theorem improve (h : grammar.Stage best) (mem : source ∈ grammar.fillingRules) :
    grammar.Stage (grammar.improve best source) := by
  have improves := grammar.improves_improve best source
  obtain ⟨present, origin⟩ := mem_fillingRules.mp mem
  exact ⟨improves.length.trans h.length,
    all_improve h.filledAt fun filler made => filledAt_filler? present origin h.filledAt made,
    h.improves.trans improves⟩

theorem foldl (h : grammar.Stage best) {sources : List (Symbol × PhraseRule κ)}
    (mem : ∀ source ∈ sources, source ∈ grammar.fillingRules) :
    grammar.Stage (sources.foldl grammar.improve best) ∧
      best.Improves (sources.foldl grammar.improve best) := by
  refine List.foldlRecOn (motive := fun better : Fillers κ => grammar.Stage better ∧
    best.Improves better) sources grammar.improve ⟨h, .refl best⟩ ?_
  intro better held source there
  exact ⟨held.1.improve (mem source there), held.2.trans (grammar.improves_improve better source)⟩

theorem pass (h : grammar.Stage best) : grammar.Stage (grammar.pass best) :=
  (h.foldl fun _ mem => mem).1

theorem improves_pass (h : grammar.Stage best) : best.Improves (grammar.pass best) :=
  (h.foldl fun _ mem => mem).2

/-- After a pass a symbol is filled at most at the cost that one of its rules comes to, with the
fillers that are there when its turn comes. -/
theorem atMost_pass {rule : PhraseRule κ} (h : grammar.Stage best)
    (mem : .phrase rule ∈ grammar.rulesOf symbol) (origin : rule.origin ≠ .transposition)
    (gives : ∀ better : Fillers κ, grammar.Stage better → best.Improves better →
      ∃ filler, rule.filler? grammar.signatures (grammar.item? symbol) better = some filler ∧
        NoDearer filler.cost cost) : (grammar.pass best).AtMost symbol cost := by
  have there : (symbol, rule) ∈ grammar.fillingRules := mem_fillingRules.mpr ⟨mem, origin⟩
  obtain ⟨before, after, split⟩ := List.append_of_mem there
  have known : ∀ source ∈ before ++ (symbol, rule) :: after, source ∈ grammar.fillingRules :=
    fun source mem => split ▸ mem
  obtain ⟨first, later⟩ := List.forall_mem_append.mp known
  obtain ⟨turn, last⟩ := List.forall_mem_cons.mp later
  obtain ⟨stage, better⟩ := h.foldl first
  obtain ⟨filler, made, least⟩ := gives _ stage better
  have here : (grammar.improve (before.foldl grammar.improve best) (symbol, rule)).AtMost symbol
      filler.cost := atMost_improve (stage.length ▸ lt_size_of_mem_rulesOf mem) made
  obtain ⟨given, found, less⟩ := ((stage.improve turn).foldl last).2.atMost here
  refine ⟨given, ?_, less.trans least⟩
  rw [Grammar.pass, split, List.foldl_append, List.foldl_cons]
  exact found

theorem passes (grammar : Grammar κ) (count : Nat) :
    grammar.Stage (grammar.pass^[count] grammar.seeds) :=
  Function.Iterate.rec (fun best : Fillers κ => grammar.Stage best) (seeds grammar)
    (fun _ held => held.pass) count

end Stage

end Passes

/-- No way of leaving a symbol out is cheaper than its filler. -/
def Settled (grammar : Grammar κ) (best : Fillers κ) (symbol : Symbol) : Prop :=
  ∀ cost, grammar.FilledAt symbol cost → best.AtMost symbol cost

theorem Settled.improves (h : grammar.Settled best symbol) (improves : best.Improves better) :
    grammar.Settled better symbol :=
  fun cost filled => improves.atMost (h cost filled)

open Classical in
noncomputable def unsettled (grammar : Grammar κ) (best : Fillers κ) : Finset Nat :=
  (Finset.range grammar.size).filter fun index => ¬ grammar.Settled best ⟨index⟩

theorem mem_unsettled {index : Nat} :
    index ∈ grammar.unsettled best ↔ index < grammar.size ∧ ¬ grammar.Settled best ⟨index⟩ := by
  classical
  rw [unsettled, Finset.mem_filter, Finset.mem_range]

theorem card_unsettled_le (grammar : Grammar κ) (best : Fillers κ) :
    (grammar.unsettled best).card ≤ grammar.size := by
  classical
  exact (Finset.card_filter_le _ _).trans (Finset.card_range _).le

open Classical in
/-- The symbols that are not settled, each with the filler that it has later, if it has one. -/
noncomputable def pending (grammar : Grammar κ) (best later : Fillers κ) :
    List (Symbol × Filler κ) :=
  (grammar.symbols.filter fun symbol => ¬ grammar.Settled best symbol).filterMap fun symbol =>
    (later.of? symbol).map (symbol, ·)

theorem mem_pending {pair : Symbol × Filler κ} :
    pair ∈ grammar.pending best better ↔ pair.1.index < grammar.size ∧
      ¬ grammar.Settled best pair.1 ∧ better.of? pair.1 = some pair.2 := by
  simp only [pending, symbols, List.mem_filterMap, List.mem_filter, List.mem_map, List.mem_range,
    decide_eq_true_eq, Option.map_eq_some_iff]
  constructor
  · rintro ⟨_, ⟨⟨index, known, rfl⟩, unsettled⟩, filler, given, rfl⟩
    exact ⟨known, unsettled, given⟩
  · rintro ⟨known, unsettled, given⟩
    exact ⟨pair.1, ⟨⟨_, known, rfl⟩, unsettled⟩, pair.2, given, rfl⟩

section Settling

variable [TransOrd κ]

theorem atMost_seeds {filler : Filler κ} (known : symbol.index < grammar.size)
    (own : symbol = .empty ∧ filler = .nothing ∨ grammar.zeroFiller? symbol = some filler ∨
      ∃ rule, .word rule ∈ grammar.rulesOf symbol ∧ rule.filler? = some filler) :
    grammar.seeds.AtMost symbol filler.cost := by
  obtain ⟨entry, found⟩ := Option.isSome_iff_exists.mp (entryOf?_isSome.mpr known)
  rw [Fillers.AtMost, seeds_of?, found, Option.bind_some]
  refine Entry.exists_seed ?_
  rw [zeroFiller?, rulesOf_eq found, found] at own
  refine own.imp_left ?_
  rintro ⟨rfl, rfl⟩
  rfl

variable (sums : SumsGrow κ) (sound : grammar.IsSound)
  (charges : grammar.Obeys Rule.Charges Filler.Charges)
  (reduced : ∀ symbol rule, .phrase rule ∈ grammar.rulesOf symbol →
    ∀ meaning ∈ rule.meaning, meaning.isReduced = true)

include sums sound charges reduced

/-- Where a symbol is not settled, a pass finds for some such symbol a filler that costs no more
than any way of leaving the first one out. -/
theorem Stage.exists_unsettled (h : grammar.Stage best) (filled : grammar.FilledAt symbol cost)
    (unsettled : ¬ grammar.Settled best symbol) :
    ∃ next less, ¬ grammar.Settled best next ∧ (grammar.pass best).AtMost next less ∧
      NoDearer less cost := by
  have own : ∀ {symbol : Symbol} {filler : Filler κ}, symbol.index < grammar.size →
      (symbol = .empty ∧ filler = .nothing ∨ grammar.zeroFiller? symbol = some filler ∨
        ∃ rule, .word rule ∈ grammar.rulesOf symbol ∧ rule.filler? = some filler) →
      (grammar.pass best).AtMost symbol filler.cost :=
    fun known own => h.improves_pass.atMost (h.improves.atMost (atMost_seeds known own))
  -- On every branch a step all of whose children are settled is found in this pass.
  induction filled with
  | empty =>
    have known : Symbol.empty.index < grammar.size := lt_size_of_entryOf? sound.empty
    exact ⟨_, _, unsettled, own known (.inl ⟨rfl, rfl⟩), .refl _⟩
  | zeroFiller zero =>
    have known := (FilledAt.zeroFiller zero).lt_size sound
    exact ⟨_, _, unsettled, own known (.inr (.inl zero)), .refl _⟩
  | @word symbol rule cost mem given =>
    have made : rule.filler? =
        some ⟨cost + rule.penalty, [rule.display], rule.meaning.toList⟩ :=
      congrArg (Option.map _) given
    exact ⟨_, _, unsettled, own (lt_size_of_mem_rulesOf mem) (.inr (.inr ⟨_, mem, made⟩)), .refl _⟩
  | @declared symbol rule cost mem origin abridged given =>
    refine ⟨symbol, _, unsettled, h.atMost_pass mem origin fun better _ _ => ?_, .refl _⟩
    exact PhraseRule.exists_filler?_noDearer abridged (.inl (congrArg (Option.map _) given))
  | @composed symbol rule costOf mem origin abridged allowed optional needed ih =>
    have all := FilledAt.isCharge_places optional fun place there needs =>
      (needed place there needs).isCharge charges
    by_cases settled : ∀ place ∈ rule.slots.zipIdx, place.1.optional = false →
        grammar.Settled best place.1.symbol
    · refine ⟨symbol, _, unsettled, h.atMost_pass mem origin fun better stage improves => ?_,
        .refl _⟩
      obtain ⟨filler, composed, least⟩ := PhraseRule.exists_composedFiller?_noDearer
        sums (charges.rules _ _ mem) (reduced _ _ mem) all allowed optional
        (fun place there needs =>
          improves.atMost (settled place there needs _ (needed place there needs)))
        fun symbol filler found => (stage.filledAt symbol filler found).isCharge charges
      obtain ⟨given, made, less⟩ := PhraseRule.exists_filler?_noDearer abridged (.inr composed)
      exact ⟨given, made, less.trans least⟩
    · push Not at settled
      obtain ⟨place, there, needs, unsettled⟩ := settled
      obtain ⟨next, less, still, found, least⟩ := ih place there needs unsettled
      refine ⟨next, less, still, found, least.trans ?_⟩
      -- The child costs no more than the whole.
      exact PhraseRule.noDearer_charge sums (charges.rules _ _ mem).own all _
        (List.mem_map_of_mem there)

theorem Stage.exists_settles (h : grammar.Stage best) (unsettled : ¬ grammar.Settled best symbol) :
    ∃ next, next.index < grammar.size ∧ ¬ grammar.Settled best next ∧
      grammar.Settled (grammar.pass best) next := by
  have found : ∀ {symbol : Symbol} {cost : κ}, grammar.FilledAt symbol cost →
      ¬ grammar.Settled best symbol → ∃ other ∈ grammar.pending best (grammar.pass best),
        NoDearer other.2.cost cost := by
    intro symbol cost filled unsettled
    obtain ⟨next, less, still, ⟨filler, given, below⟩, least⟩ :=
      h.exists_unsettled sums sound charges reduced filled unsettled
    have known : next.index < grammar.size := (h.pass.filledAt _ _ given).lt_size sound
    exact ⟨(next, filler), mem_pending.mpr ⟨known, still, given⟩, below.trans least⟩
  have some : grammar.pending best (grammar.pass best) ≠ [] := by
    unfold Settled at unsettled
    push Not at unsettled
    obtain ⟨cost, filled, unfound⟩ := unsettled
    obtain ⟨other, mem, -⟩ := found filled fun settled => unfound (settled cost filled)
    exact List.ne_nil_of_mem mem
  -- What is cheapest among the symbols that are not settled was not to be had for less.
  obtain ⟨least, mem, below⟩ := NoDearer.exists_least (·.2.cost) some
  obtain ⟨known, still, given⟩ := mem_pending.mp mem
  refine ⟨least.1, known, still, fun cost filled => ⟨least.2, given, ?_⟩⟩
  obtain ⟨other, there, less⟩ := found filled still
  exact (below other there).trans less

/-- Every pass leaves fewer symbols that are not settled. -/
theorem Stage.card_unsettled_pass (h : grammar.Stage best) :
    (grammar.unsettled (grammar.pass best)).card ≤ (grammar.unsettled best).card - 1 := by
  have fewer : grammar.unsettled (grammar.pass best) ⊆ grammar.unsettled best := by
    intro index mem
    obtain ⟨known, unsettled⟩ := mem_unsettled.mp mem
    exact mem_unsettled.mpr ⟨known, fun settled => unsettled (settled.improves h.improves_pass)⟩
  rcases (grammar.unsettled best).eq_empty_or_nonempty with none | ⟨index, mem⟩
  · rw [none, Finset.subset_empty] at fewer
    rw [fewer]
    exact Nat.zero_le _
  · obtain ⟨next, known, unsettled, settled⟩ :=
      h.exists_settles sums sound charges reduced (mem_unsettled.mp mem).2
    refine Nat.le_sub_one_of_lt (Finset.card_lt_card ((Finset.ssubset_iff_of_subset fewer).mpr
      ⟨next.index, mem_unsettled.mpr ⟨known, unsettled⟩, fun still => ?_⟩))
    exact (mem_unsettled.mp still).2 settled

/-- One pass more than there are symbols settles all of them. -/
theorem settled_fillers (symbol : Symbol) : grammar.Settled grammar.fillers symbol := by
  have left : ∀ passes : Nat,
      (grammar.unsettled (grammar.pass^[passes] grammar.seeds)).card ≤ grammar.size - passes := by
    intro passes
    induction passes with
    | zero => exact grammar.card_unsettled_le grammar.seeds
    | succ passes ih =>
      rw [Function.iterate_succ_apply']
      have step := (Stage.passes grammar passes).card_unsettled_pass sums sound charges reduced
      omega
  have none : grammar.unsettled grammar.fillers = ∅ := by
    have few := left (grammar.size + 1)
    rw [← fillers_eq_iterate] at few
    exact Finset.card_eq_zero.mp (by omega)
  intro cost filled
  by_contra unfound
  have mem : symbol.index ∈ grammar.unsettled grammar.fillers :=
    mem_unsettled.mpr ⟨filled.lt_size sound, fun settled => unfound (settled cost filled)⟩
  rw [none] at mem
  exact Finset.notMem_empty _ mem

end Settling

/-- After every run whose phrases have no meanings that wait for arguments, the symbols that have
fillers are those that may be left out, and each filler is a cheapest way of leaving its symbol
out. -/
theorem run_fillers_least [TransOrd κ] (sums : SumsGrow κ) {operations : List (Operation κ)}
    (reduced : ∀ symbol rule, .phrase rule ∈ (run operations).rulesOf symbol →
      ∀ meaning ∈ rule.meaning, meaning.isReduced = true) (symbol : Symbol) :
    (((run operations).fillers.of? symbol).isSome = true ↔
        ∃ cost, (run operations).FilledAt symbol cost) ∧
      ∀ filler, (run operations).fillers.of? symbol = some filler →
        (run operations).FilledAt symbol filler.cost ∧
        ∀ cost, (run operations).FilledAt symbol cost → NoDearer filler.cost cost := by
  have settled : (run operations).Settled (run operations).fillers symbol :=
    settled_fillers sums (.run operations) (run_charges operations) reduced symbol
  have stage : (run operations).Stage (run operations).fillers :=
    fillers_eq_iterate (run operations) ▸ .passes (run operations) _
  refine ⟨⟨fun some => ?_, fun ⟨cost, filled⟩ => ?_⟩,
    fun filler found => ⟨?_, fun cost filled => ?_⟩⟩
  · obtain ⟨filler, found⟩ := Option.isSome_iff_exists.mp some
    exact ⟨filler.cost, stage.filledAt symbol filler found⟩
  · obtain ⟨filler, found, -⟩ := settled cost filled
    exact found ▸ rfl
  · exact stage.filledAt symbol filler found
  · obtain ⟨best, there, least⟩ := settled cost filled
    obtain rfl := Option.some.inj (found.symm.trans there)
    exact least

theorem noDearer_iff {a b : ℚ≥0} : NoDearer a b ↔ a ≤ b := by
  rw [NoDearer, Ordering.isLE_iff_ne_gt]
  exact compare_le_iff_le

theorem sumsGrow_exact : SumsGrow ℚ≥0 where
  left _ _ := noDearer_iff.mpr le_self_add
  right _ _ := noDearer_iff.mpr le_add_self
  both _ _ _ _ first second :=
    noDearer_iff.mpr (add_le_add (noDearer_iff.mp first) (noDearer_iff.mp second))

/-- A mark and a pair of marks, each of which may be the other or some more. -/
def detour : List (Operation ℚ≥0) :=
  [.newSymbol ["mark"], .newSymbol ["pair"], .newSymbol ["more"],
    .addRule ⟨2⟩ (.word { WordRule.ofLiteral "mark" with insertionCost := some 3 }),
    .addRule ⟨2⟩ (.phrase (.ofSymbols [⟨3⟩])),
    .addRule ⟨3⟩ (.phrase (.ofSymbols [⟨2⟩, ⟨2⟩])),
    .addRule ⟨3⟩ (.phrase (.ofSymbols [⟨4⟩])),
    .addRule ⟨4⟩ (.phrase { PhraseRule.ofSymbols [⟨2⟩] with insertionCost := some 1 })]

/-- A mark costs no more than the mark that the pair may be made of is declared to cost. -/
theorem detour_fillers_least :
    (∀ index < (run detour).size, ∀ rule ∈ (run detour).rulesOf ⟨index⟩, rule.meaning = none) ∧
      (run detour).fillers.of? ⟨2⟩ = some ⟨1, [], []⟩ ∧ (run detour).FilledAt ⟨2⟩ 1 ∧
      ∀ cost, (run detour).FilledAt ⟨2⟩ cost → 1 ≤ cost := by
  have none : ∀ index < (run detour).size, ∀ rule ∈ (run detour).rulesOf ⟨index⟩,
      rule.meaning = none := by decide +kernel
  have filler : (run detour).fillers.of? ⟨2⟩ = some ⟨1, [], []⟩ := by decide +kernel
  obtain ⟨-, least⟩ := run_fillers_least sumsGrow_exact (fun symbol rule mem meaning given => by
    have without := none symbol.index (lt_size_of_mem_rulesOf mem) _ mem
    exact nomatch without.symm.trans given) ⟨2⟩
  obtain ⟨filled, below⟩ := least _ filler
  exact ⟨none, filler, filled, fun cost other => noDearer_iff.mp (below cost other)⟩

end Grammar

end PhraseGrammar
