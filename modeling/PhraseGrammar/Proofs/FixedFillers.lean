import Mathlib.Algebra.Order.Ring.NNRat
import Mathlib.Data.Set.Finite.Basic
import Mathlib.Logic.Relation
import PhraseGrammar.Cost.Float
import PhraseGrammar.Proofs.LeastFillers

/-! When fillers have spread for good. A filler may give way to one that costs as much but shows or
means less, so that symbols whose costs are settled may still change. They are all fixed after one
pass more than there are symbols if no symbol is carried by itself: if none is a needed part of what
its own rules make at no more than its cost. Otherwise the passes may end too early. -/

namespace PhraseGrammar

open Relation Std

variable {κ : Type} [Cost κ]

namespace Filler

variable [TransOrd κ] {a b : Filler κ} {current : Option (Filler κ)}

theorem beats_eq_false_of_isLE (less : (a.compare b).isLE = true) : b.beats (some a) = false :=
  beq_eq_false_iff_ne.mpr (compare_isLE_iff.mp less)

theorem beats_self (filler : Filler κ) : filler.beats (some filler) = false :=
  beats_eq_false_of_isLE (ReflOrd.isLE_rfl (a := filler))

theorem beats_of_isLE (less : (a.compare b).isLE = true) (wins : b.beats current = true) :
    a.beats current = true := by
  cases current with
  | none => rfl
  | some current =>
    have behind : b.compare current = .lt := beq_iff_eq.mp wins
    exact beq_iff_eq.mpr (TransCmp.lt_of_isLE_of_lt less behind)

omit [TransOrd κ] in
theorem isLE_of_beats (wins : a.beats (some b) = true) : (a.compare b).isLE = true := by
  have less : a.compare b = .lt := beq_iff_eq.mp wins
  exact less ▸ rfl

end Filler

namespace Fillers

def Descends (best better : Fillers κ) : Prop :=
  ∀ symbol, better.of? symbol = best.of? symbol ∨
    ∃ filler, better.of? symbol = some filler ∧ filler.beats (best.of? symbol) = true

namespace Descends

theorem refl (best : Fillers κ) : best.Descends best :=
  fun _ => .inl rfl

variable [TransOrd κ] {best better again : Fillers κ} {symbol : Symbol} {filler : Filler κ}

theorem trans (first : best.Descends better) (second : Descends better again) :
    best.Descends again := by
  intro symbol
  rcases second symbol with kept | ⟨filler, found, wins⟩
  · rw [kept]
    exact first symbol
  · right
    refine ⟨filler, found, ?_⟩
    rcases first symbol with same | ⟨between, there, above⟩
    · exact same ▸ wins
    · rw [there] at wins
      exact Filler.beats_of_isLE (Filler.isLE_of_beats wins) above

theorem of?_eq (first : best.Descends better) (second : Descends better again)
    (same : again.of? symbol = best.of? symbol) : better.of? symbol = best.of? symbol := by
  rcases first symbol with kept | ⟨filler, there, above⟩
  · exact kept
  · exfalso
    obtain ⟨last, found, less⟩ : ∃ last, again.of? symbol = some last ∧
        (last.compare filler).isLE = true := by
      rcases second symbol with kept | ⟨last, found, wins⟩
      · exact ⟨filler, kept.trans there, ReflOrd.isLE_rfl (a := filler)⟩
      · exact ⟨last, found, Filler.isLE_of_beats (there ▸ wins)⟩
    have wins := Filler.beats_of_isLE less above
    rw [← same, found, Filler.beats_self] at wins
    exact nomatch wins

theorem exists_isLE (h : best.Descends better) (found : best.of? symbol = some filler) :
    ∃ given, better.of? symbol = some given ∧ (given.compare filler).isLE = true := by
  rcases h symbol with kept | ⟨given, there, wins⟩
  · exact ⟨filler, kept.trans found, ReflOrd.isLE_rfl (a := filler)⟩
  · exact ⟨given, there, Filler.isLE_of_beats (found ▸ wins)⟩

end Descends

end Fillers

namespace Grammar

variable {grammar : Grammar κ} {best start better last : Fillers κ} {symbol : Symbol}
  {source : Symbol × PhraseRule κ}

theorem descends_improve (grammar : Grammar κ) (best : Fillers κ)
    (source : Symbol × PhraseRule κ) : best.Descends (grammar.improve best source) := by
  rw [improve_eq]
  split
  case h_1 => exact .refl best
  case h_2 candidate made =>
    split
    case isFalse => exact .refl best
    case isTrue wins =>
      intro symbol
      rw [Fillers.of?_set]
      split
      case isFalse => exact .inl rfl
      case isTrue here =>
        obtain rfl : source.1 = symbol := congrArg Symbol.mk here.1
        exact .inr ⟨candidate, rfl, wins⟩

variable [TransOrd κ]

theorem descends_foldl (grammar : Grammar κ) (best : Fillers κ)
    (sources : List (Symbol × PhraseRule κ)) :
    best.Descends (sources.foldl grammar.improve best) :=
  List.foldlRecOn sources grammar.improve (.refl best) fun better held source _ =>
    held.trans (grammar.descends_improve better source)

theorem Stage.exists_turn (h : grammar.Stage best) (mem : source ∈ grammar.fillingRules) :
    ∃ turn : Fillers κ, grammar.Stage turn ∧ best.Descends turn ∧
      (grammar.improve turn source).Descends (grammar.pass best) := by
  obtain ⟨before, after, split⟩ := List.append_of_mem mem
  refine ⟨before.foldl grammar.improve best, (h.foldl fun other there => ?_).1,
    grammar.descends_foldl best before, ?_⟩
  · exact split ▸ List.mem_append_left _ there
  · rw [Grammar.pass, split, List.foldl_append, List.foldl_cons]
    exact grammar.descends_foldl _ after

/-- A rule has given a symbol its filler, out of fillers that were there at its turn. -/
def GivenSince (grammar : Grammar κ) (start better : Fillers κ) (symbol : Symbol)
    (filler : Filler κ) : Prop :=
  ∃ rule turn, .phrase rule ∈ grammar.rulesOf symbol ∧ rule.origin ≠ .transposition ∧
    rule.filler? grammar.signatures (grammar.item? symbol) turn = some filler ∧
    grammar.Stage turn ∧ start.Descends turn ∧ turn.Descends better

/-- Fillers that have spread from others: each was there at the start, or a rule has given it. -/
structure SpreadsFrom (grammar : Grammar κ) (start better : Fillers κ) : Prop where
  stage : grammar.Stage better
  descends : start.Descends better
  given : better.All fun symbol filler =>
    start.of? symbol = some filler ∨ grammar.GivenSince start better symbol filler

namespace SpreadsFrom

omit [TransOrd κ] in
theorem refl (h : grammar.Stage start) : grammar.SpreadsFrom start start :=
  ⟨h, .refl start, fun _ _ => .inl⟩

theorem improve (h : grammar.SpreadsFrom start better) (mem : source ∈ grammar.fillingRules) :
    grammar.SpreadsFrom start (grammar.improve better source) := by
  have step := grammar.descends_improve better source
  obtain ⟨present, origin⟩ := mem_fillingRules.mp mem
  refine ⟨h.stage.improve mem, h.descends.trans step, all_improve ?_ fun filler made => ?_⟩
  · intro symbol filler found
    refine (h.given symbol filler found).imp_right ?_
    rintro ⟨rule, turn, present, origin, made, stage, before, after⟩
    exact ⟨rule, turn, present, origin, made, stage, before, after.trans step⟩
  · exact .inr ⟨source.2, better, present, origin, made, h.stage, h.descends, step⟩

theorem pass (h : grammar.SpreadsFrom start better) :
    grammar.SpreadsFrom start (grammar.pass better) :=
  List.foldlRecOn _ grammar.improve h fun _ held _ mem => held.improve mem

theorem passes (h : grammar.Stage start) (count : Nat) :
    grammar.SpreadsFrom start (grammar.pass^[count] start) :=
  Function.Iterate.rec (fun better : Fillers κ => grammar.SpreadsFrom start better) (refl h)
    (fun _ held => held.pass) count

omit [TransOrd κ] in
theorem exists_of_changed (h : grammar.SpreadsFrom start better)
    (changed : better.of? symbol ≠ start.of? symbol) :
    ∃ filler, better.of? symbol = some filler := by
  rcases h.descends symbol with kept | ⟨filler, found, -⟩
  · exact absurd kept changed
  · exact ⟨filler, found⟩

end SpreadsFrom

end Grammar

namespace PhraseRule

variable {rule : PhraseRule κ} {best better : Fillers κ}

theorem composedFiller?_congr {signatures : Signatures κ}
    (same : ∀ place ∈ rule.slots.zipIdx, place.1.optional = false →
      best.of? place.1.symbol = better.of? place.1.symbol) :
    rule.composedFiller? signatures best = rule.composedFiller? signatures better := by
  have parts : rule.parts? best = rule.parts? better := by
    refine mapM_congr fun place mem => ?_
    exact congrArg (Option.map place.1.quiet) (slotFiller?_congr fun _ => same place mem)
  unfold composedFiller?
  rw [parts]

variable [TransOrd κ]

theorem noDearer_slotCost {place : Slot × Nat} (descends : best.Descends better)
    (filled : (rule.slotFiller? best place.1 place.2).isSome = true) :
    (rule.slotFiller? better place.1 place.2).isSome = true ∧
      NoDearer (rule.slotCost better place) (rule.slotCost best place) := by
  obtain ⟨allowed, known⟩ := slotFiller?_isSome.mp filled
  rw [slotFiller?_isSome]
  cases skipped : place.1.optional with
  | true =>
    refine ⟨⟨allowed, nofun⟩, ?_⟩
    rw [slotCost_of_optional allowed skipped, slotCost_of_optional allowed skipped]
    exact .refl 0
  | false =>
    obtain ⟨filler, found⟩ := Option.isSome_iff_exists.mp (known skipped)
    obtain ⟨given, there, less⟩ := descends.exists_isLE found
    refine ⟨⟨allowed, fun _ => there ▸ rfl⟩, ?_⟩
    rw [slotCost_of_needed allowed skipped found, slotCost_of_needed allowed skipped there]
    exact Filler.noDearer_of_isLE less

end PhraseRule

namespace Grammar

variable {grammar : Grammar κ} {best start better last : Fillers κ} {symbol : Symbol}

theorem Stage.of?_eq_none (h : grammar.Stage best) (unknown : grammar.size ≤ symbol.index) :
    best.of? symbol = none := by
  rw [Fillers.of?, List.getElem?_eq_none (h.length.symm ▸ unknown)]
  rfl

theorem Stage.lt_size (h : grammar.Stage best) {filler : Filler κ}
    (found : best.of? symbol = some filler) : symbol.index < grammar.size := by
  by_contra unknown
  exact nomatch found.symm.trans (h.of?_eq_none (Nat.le_of_not_lt unknown))

theorem Stage.isCharge_slotCost (h : grammar.Stage best)
    (charges : grammar.Obeys Rule.Charges Filler.Charges) (rule : PhraseRule κ)
    (place : Slot × Nat) : IsCharge (rule.slotCost best place) := by
  unfold PhraseRule.slotCost
  cases found : rule.slotFiller? best place.1 place.2 with
  | none => exact .zero
  | some filler =>
    unfold PhraseRule.slotFiller? at found
    split at found
    · cases found
    · split at found
      · exact Option.some.inj found ▸ .zero
      · exact (h.filledAt _ _ found).isCharge charges

/-- A phrase whose children may all be left out needs one symbol and makes something for another
one that comes to no more than what this has. -/
def Carries (grammar : Grammar κ) (best : Fillers κ) (child parent : Symbol) : Prop :=
  ∃ rule filler, .phrase rule ∈ grammar.rulesOf parent ∧ rule.origin ≠ .transposition ∧
    (∃ place ∈ rule.slots.zipIdx, place.1.optional = false ∧ place.1.symbol = child) ∧
    (∀ place ∈ rule.slots.zipIdx, (rule.slotFiller? best place.1 place.2).isSome = true) ∧
    best.of? parent = some filler ∧
    NoDearer (rule.charge (rule.slots.zipIdx.map (rule.slotCost best))) filler.cost

variable [TransOrd κ]

theorem carries_of_composed (sums : SumsGrow κ)
    (charges : grammar.Obeys Rule.Charges Filler.Charges) {turn : Fillers κ} {rule : PhraseRule κ}
    {filler : Filler κ} (mem : .phrase rule ∈ grammar.rulesOf symbol)
    (origin : rule.origin ≠ .transposition) (stage : grammar.Stage turn)
    (later : grammar.Stage last) (descends : turn.Descends last)
    (composed : rule.composedFiller? grammar.signatures turn = some filler)
    (found : last.of? symbol = some filler) {place : Slot × Nat}
    (there : place ∈ rule.slots.zipIdx) (needed : place.1.optional = false) :
    grammar.Carries last place.1.symbol symbol := by
  obtain ⟨parts, meanings, made, -, same⟩ := PhraseRule.composedFiller?_eq_some.mp composed
  have filled : ∀ place ∈ rule.slots.zipIdx,
      (rule.slotFiller? turn place.1 place.2).isSome = true := by
    intro place there
    have here := isSome_of_mapM made place there
    rwa [Option.isSome_map] at here
  have cost : filler.cost = rule.charge (rule.slots.zipIdx.map (rule.slotCost turn)) := by
    rw [← same, PhraseRule.cost_withElided, PhraseRule.costs_of_parts? made]
  refine ⟨rule, filler, mem, origin, ⟨place, there, needed, rfl⟩,
    fun place there => (PhraseRule.noDearer_slotCost descends (filled place there)).1, found, ?_⟩
  rw [cost]
  refine PhraseRule.charge_mono sums (charges.rules _ _ mem).own ?_ ?_ ?_
  · exact List.forall_mem_map.mpr fun place _ => later.isCharge_slotCost charges rule place
  · exact List.forall_mem_map.mpr fun place _ => stage.isCharge_slotCost charges rule place
  · rw [List.forall₂_map_left_iff, List.forall₂_map_right_iff, List.forall₂_same]
    exact fun place there => (PhraseRule.noDearer_slotCost descends (filled place there)).2

open Classical in
noncomputable def changing (grammar : Grammar κ) (best last : Fillers κ) : Finset Symbol :=
  grammar.symbols.toFinset.filter fun symbol => last.of? symbol ≠ best.of? symbol

omit [Cost κ] [TransOrd κ] in
theorem mem_changing : symbol ∈ grammar.changing best last ↔
    symbol.index < grammar.size ∧ last.of? symbol ≠ best.of? symbol := by
  classical
  rw [changing, Finset.mem_filter, List.mem_toFinset]
  refine and_congr_left' ?_
  simp only [symbols, List.mem_map, List.mem_range]
  constructor
  · rintro ⟨_, known, rfl⟩
    exact known
  · exact fun known => ⟨_, known, rfl⟩

omit [Cost κ] [TransOrd κ] in
theorem card_changing_le : (grammar.changing best last).card ≤ grammar.size := by
  classical
  calc (grammar.changing best last).card
      ≤ grammar.symbols.toFinset.card := Finset.card_filter_le _ _
    _ ≤ grammar.symbols.length := List.toFinset_card_le _
    _ = grammar.size := by rw [symbols, List.length_map, List.length_range]

/-- Where nothing is above itself, some of finitely many things have none of the others below. -/
theorem exists_lowest {α : Type} {R : α → α → Prop} (acyclic : ∀ x, ¬ TransGen R x x)
    {xs : Finset α} (some : xs.Nonempty) : ∃ x ∈ xs, ∀ y ∈ xs, ¬ R y x := by
  let below (x y : xs) : Prop := TransGen R x.1 y.1
  have trans : IsTrans xs below := ⟨fun _ _ _ => TransGen.trans⟩
  have irrefl : Std.Irrefl below := ⟨fun x => acyclic x.1⟩
  obtain ⟨x, mem⟩ := some
  obtain ⟨lowest, -, least⟩ := (Finite.wellFounded_of_trans_of_irrefl below).has_min Set.univ
    ⟨⟨x, mem⟩, trivial⟩
  exact ⟨lowest.1, lowest.2, fun y mem step => least ⟨y, mem⟩ trivial (.single step)⟩

/-- The rule that has given a symbol its last filler gives one as good at any time, if no symbol that
still changes carries this one. -/
theorem SpreadsFrom.exists_offered (sums : SumsGrow κ)
    (charges : grammar.Obeys Rule.Charges Filler.Charges)
    (spreads : grammar.SpreadsFrom start last)
    (lowest : ∀ child ∈ grammar.changing start last, ¬ grammar.Carries last child symbol)
    {filler : Filler κ} (found : last.of? symbol = some filler) {rule : PhraseRule κ}
    {turn now : Fillers κ} (mem : .phrase rule ∈ grammar.rulesOf symbol)
    (origin : rule.origin ≠ .transposition)
    (made : rule.filler? grammar.signatures (grammar.item? symbol) turn = some filler)
    (stage : grammar.Stage turn) (before : start.Descends turn) (after : turn.Descends last)
    (before' : start.Descends now) (after' : now.Descends last) :
    ∃ given, rule.filler? grammar.signatures (grammar.item? symbol) now = some given ∧
      (given.compare filler).isLE = true := by
  obtain ⟨abridged, declared | composed⟩ := PhraseRule.filler?_cases made
  · exact PhraseRule.exists_filler?_isLE abridged (.inl declared)
  · refine PhraseRule.exists_filler?_isLE abridged (.inr ?_)
    rw [← composed]
    refine PhraseRule.composedFiller?_congr fun place there needed => ?_
    have carries := carries_of_composed sums charges mem origin stage spreads.stage after composed
      found there needed
    have still : last.of? place.1.symbol = start.of? place.1.symbol := by
      by_contra changes
      obtain ⟨child, has⟩ := spreads.exists_of_changed changes
      exact lowest _ (mem_changing.mpr ⟨spreads.stage.lt_size has, changes⟩) carries
    rw [before.of?_eq after still, before'.of?_eq after' still]

/-- As long as symbols change, a pass leaves one of them with the filler that it has at last. -/
theorem Stage.exists_fixed (sums : SumsGrow κ)
    (charges : grammar.Obeys Rule.Charges Filler.Charges) (h : grammar.Stage start)
    (spreads : grammar.SpreadsFrom start last) (rest : (grammar.pass start).Descends last)
    (acyclic : ∀ symbol, ¬ TransGen (grammar.Carries last) symbol symbol)
    (some : (grammar.changing start last).Nonempty) :
    ∃ symbol ∈ grammar.changing start last,
      last.of? symbol = (grammar.pass start).of? symbol := by
  obtain ⟨symbol, changes, lowest⟩ := exists_lowest acyclic some
  obtain ⟨known, other⟩ := mem_changing.mp changes
  obtain ⟨filler, found⟩ := spreads.exists_of_changed other
  obtain ⟨rule, turn, mem, origin, made, stage, before, after⟩ :=
    (spreads.given symbol filler found).resolve_left fun kept => other (found.trans kept.symm)
  have again : (symbol, rule) ∈ grammar.fillingRules := mem_fillingRules.mpr ⟨mem, origin⟩
  obtain ⟨now, stage', before', after'⟩ := h.exists_turn again
  have during := grammar.descends_improve now (symbol, rule)
  -- The rule that has given the last filler gives one as good in this pass already.
  obtain ⟨given, offered, less⟩ := spreads.exists_offered sums charges lowest found mem origin made
    stage before after before' (during.trans (after'.trans rest))
  have inside : (symbol, rule).1.index < now.length := stage'.length.symm ▸ known
  obtain ⟨taken, there, least⟩ := exists_improve_isLE inside offered
  -- Nothing better comes later, so what the symbol has now is what it has at last.
  have fixed : last.of? symbol = (grammar.improve now (symbol, rule)).of? symbol := by
    rcases (after'.trans rest) symbol with kept | ⟨later, at', wins⟩
    · exact kept
    · obtain rfl : later = filler := Option.some.inj (at'.symm.trans found)
      rw [there, Filler.beats_eq_false_of_isLE (TransCmp.isLE_trans least less)] at wins
      exact nomatch wins
  exact ⟨symbol, changes, fixed.trans (after'.of?_eq rest fixed).symm⟩

omit [TransOrd κ] in
/-- No rule gives its symbol a better filler than the one that the symbol has. -/
def IsFixed (grammar : Grammar κ) (best : Fillers κ) : Prop :=
  ∀ symbol rule, .phrase rule ∈ grammar.rulesOf symbol → rule.origin ≠ .transposition →
    ∀ filler, rule.filler? grammar.signatures (grammar.item? symbol) best = some filler →
      filler.beats (best.of? symbol) = false

omit [TransOrd κ] in
theorem isFixed_iff : grammar.IsFixed best ↔ ∀ source ∈ grammar.fillingRules,
    ∀ filler ∈ source.2.filler? grammar.signatures (grammar.item? source.1) best,
      filler.beats (best.of? source.1) = false := by
  constructor
  · intro fixed source there filler made
    obtain ⟨mem, origin⟩ := mem_fillingRules.mp there
    exact fixed source.1 source.2 mem origin filler made
  · intro fixed symbol rule mem origin filler made
    have there : (symbol, rule) ∈ grammar.fillingRules := mem_fillingRules.mpr ⟨mem, origin⟩
    exact fixed _ there filler made

theorem Stage.isFixed_pass (h : grammar.Stage best)
    (still : ∀ symbol, (grammar.pass best).of? symbol = best.of? symbol) :
    grammar.IsFixed (grammar.pass best) := by
  intro symbol rule mem origin filler made
  have there : (symbol, rule) ∈ grammar.fillingRules := mem_fillingRules.mpr ⟨mem, origin⟩
  obtain ⟨turn, stage, before, after⟩ := h.exists_turn there
  have during := grammar.descends_improve turn (symbol, rule)
  have same : ∀ symbol, turn.of? symbol = (grammar.pass best).of? symbol := fun symbol =>
    (before.of?_eq (during.trans after) (still symbol)).trans (still symbol).symm
  rw [← PhraseRule.filler?_congr fun slot _ _ _ => same slot.symbol] at made
  have inside : (symbol, rule).1.index < turn.length :=
    stage.length.symm ▸ lt_size_of_mem_rulesOf mem
  obtain ⟨given, taken, least⟩ := exists_improve_isLE inside made
  have kept := (before.trans during).of?_eq after (still symbol)
  rw [still symbol, ← kept, taken]
  exact Filler.beats_eq_false_of_isLE least

theorem Stage.descends_passes (h : grammar.Stage best) (count : Nat) :
    best.Descends (grammar.pass^[count] best) :=
  (SpreadsFrom.passes h count).descends

section Convergence

variable (sums : SumsGrow κ) (charges : grammar.Obeys Rule.Charges Filler.Charges)
  (acyclic : ∀ symbol, ¬ TransGen (grammar.Carries grammar.fillers) symbol symbol)

include sums charges acyclic

/-- Each pass leaves fewer symbols that still change. -/
theorem card_changing_passes {passes : Nat} (within : passes ≤ grammar.size + 1) :
    (grammar.changing (grammar.pass^[passes] grammar.seeds) grammar.fillers).card ≤
      grammar.size - passes := by
  induction passes with
  | zero => exact card_changing_le
  | succ passes ih =>
    rw [Function.iterate_succ_apply']
    generalize reached : grammar.pass^[passes] grammar.seeds = start at ih ⊢
    have stage : grammar.Stage start := reached ▸ .passes grammar passes
    obtain ⟨more, enough⟩ := Nat.exists_eq_add_of_le within
    have rest : grammar.fillers = grammar.pass^[more] (grammar.pass start) := by
      rw [fillers_eq_iterate, enough, Nat.add_comm, Function.iterate_add_apply,
        Function.iterate_succ_apply', reached]
    have spreads : grammar.SpreadsFrom start grammar.fillers :=
      rest ▸ Function.iterate_succ_apply .. ▸ .passes stage (more + 1)
    have later : (grammar.pass start).Descends grammar.fillers :=
      rest ▸ stage.pass.descends_passes more
    have fewer : grammar.changing (grammar.pass start) grammar.fillers ⊆
        grammar.changing start grammar.fillers := by
      intro symbol mem
      obtain ⟨known, changes⟩ := mem_changing.mp mem
      refine mem_changing.mpr ⟨known, fun still => changes ?_⟩
      have step : start.Descends (grammar.pass start) := stage.descends_passes 1
      exact still.trans (step.of?_eq later still).symm
    have before := ih (Nat.le_of_succ_le within)
    rcases (grammar.changing start grammar.fillers).eq_empty_or_nonempty with none | some
    · rw [none, Finset.subset_empty] at fewer
      rw [fewer]
      exact Nat.zero_le _
    · obtain ⟨symbol, mem, fixed⟩ := stage.exists_fixed sums charges spreads later acyclic some
      have smaller := Finset.card_lt_card ((Finset.ssubset_iff_of_subset fewer).mpr
        ⟨symbol, mem, fun still => (mem_changing.mp still).2 fixed⟩)
      omega

theorem isFixed_fillers : grammar.IsFixed grammar.fillers := by
  have none : grammar.changing (grammar.pass^[grammar.size] grammar.seeds) grammar.fillers = ∅ := by
    have few := card_changing_passes sums charges acyclic (Nat.le_succ grammar.size)
    exact Finset.card_eq_zero.mp (by omega)
  have stage := Stage.passes grammar grammar.size
  have last : grammar.fillers = grammar.pass (grammar.pass^[grammar.size] grammar.seeds) := by
    rw [fillers_eq_iterate, Function.iterate_succ_apply']
  rw [last] at none ⊢
  refine stage.isFixed_pass fun symbol => ?_
  by_cases known : symbol.index < grammar.size
  · by_contra changes
    exact Finset.notMem_empty symbol (none ▸ mem_changing.mpr ⟨known, changes⟩)
  · have unknown := Nat.le_of_not_lt known
    rw [stage.pass.of?_eq_none unknown, stage.of?_eq_none unknown]

end Convergence

/-- After every run the fillers are fixed, so that the bound on the passes has ended them no earlier
than they would have ended by themselves, if no symbol is carried by itself. -/
theorem run_fillers_fixed (sums : SumsGrow κ) {operations : List (Operation κ)}
    (acyclic : ∀ symbol,
      ¬ TransGen ((run operations).Carries (run operations).fillers) symbol symbol) :
    (run operations).IsFixed (run operations).fillers :=
  isFixed_fillers sums (run_charges operations) acyclic

omit [TransOrd κ] in
theorem uncarried_of_rank (rank : Symbol → Nat)
    (lower : ∀ source ∈ grammar.fillingRules, ∀ filler ∈ best.of? source.1,
      (Ord.compare (source.2.charge (source.2.slots.zipIdx.map (source.2.slotCost best)))
        filler.cost).isLE = true →
      ∀ place ∈ source.2.slots.zipIdx, place.1.optional = false →
        rank place.1.symbol < rank source.1) (symbol : Symbol) :
    ¬ TransGen (grammar.Carries best) symbol symbol := by
  have step : ∀ {child parent}, grammar.Carries best child parent → rank child < rank parent := by
    rintro child parent ⟨rule, filler, mem, origin, ⟨place, there, needed, rfl⟩, -, found, least⟩
    have source : (parent, rule) ∈ grammar.fillingRules := mem_fillingRules.mpr ⟨mem, origin⟩
    exact lower _ source filler found least place there needed
  intro path
  have less : TransGen (· < ·) (rank symbol) (rank symbol) := path.lift rank fun _ _ => step
  rw [transGen_eq_self] at less
  exact Nat.lt_irrefl _ less

/-- A mark may be a pair, which may be two marks at a cost, or some more. -/
def spare : List (Operation ℚ≥0) :=
  [.newSymbol ["mark"], .newSymbol ["pair"], .newSymbol ["more"],
    .addRule ⟨2⟩ (.word { WordRule.ofLiteral "mark" with insertionCost := some 1 }),
    .addRule ⟨2⟩ (.phrase (.ofSymbols [⟨3⟩])),
    .addRule ⟨3⟩ (.phrase { PhraseRule.ofSymbols [⟨2⟩, ⟨2⟩] with cost := 1 }),
    .addRule ⟨3⟩ (.phrase (.ofSymbols [⟨4⟩])),
    .addRule ⟨4⟩ (.word { WordRule.ofLiteral "more" with insertionCost := some 0 })]

/-- Two marks come to more than the pair has to cost, so the mark does not carry the pair. -/
theorem spare_fillers_fixed :
    (run spare).fillers.of? ⟨2⟩ = some ⟨0, [.fixed "more"], []⟩ ∧
      (run spare).IsFixed (run spare).fillers := by
  refine ⟨by decide +kernel, run_fillers_fixed sumsGrow_exact (uncarried_of_rank
    (fun symbol => 5 - symbol.index) ?_)⟩
  decide +kernel

def echo (symbol : Symbol) : PhraseRule Float :=
  { PhraseRule.ofSymbols [symbol] with meaning := some (.argument "k"), text := some [] }

def wrap (symbol : Symbol) : PhraseRule Float :=
  { PhraseRule.ofSymbols [symbol] with
    meaning := some (.apply "f" []), text := some [.fixed "more"] }

/-- Every symbol but the first one wraps what comes before it, which takes what this is said to be
once more. -/
def slowChain : List (Operation Float) :=
  [.newSymbol ["third"], .newSymbol ["second"], .newSymbol ["first"],
    .declareFunction "f" 0 2 2 false, .declareArgument "a" 0, .declareArgument "k" 0,
    .addRule ⟨4⟩ (.word { WordRule.ofLiteral "word" with
      insertionCost := some 0, meaning := some (.argument "a") }),
    .addRule ⟨4⟩ (.phrase (echo ⟨4⟩)),
    .addRule ⟨3⟩ (.phrase (echo ⟨3⟩)), .addRule ⟨3⟩ (.phrase (wrap ⟨4⟩)),
    .addRule ⟨2⟩ (.phrase (echo ⟨2⟩)), .addRule ⟨2⟩ (.phrase (wrap ⟨3⟩)),
    .addRule .start (.phrase (echo .start)), .addRule .start (.phrase (wrap ⟨2⟩))]

/-- Every symbol changes twice, in a pass of its own each time. The passes end before the last
change, after which nothing would change. -/
theorem slowChain_fillers_not_fixed :
    (∀ operation ∈ slowChain, operation.IsPlain) ∧
      ¬ (run slowChain).IsFixed (run slowChain).fillers ∧
      (run slowChain).IsFixed ((run slowChain).pass (run slowChain).fillers) := by
  refine ⟨?_, fun fixed => ?_, isFixed_iff.mpr (by decide +kernel)⟩
  · have echo : ∀ symbol, (Rule.phrase (echo symbol)).IsPlain := fun _ => Rule.isPlain_ofSlots
    have wrap : ∀ symbol, (Rule.phrase (wrap symbol)).IsPlain := fun _ => Rule.isPlain_ofSlots
    simp only [slowChain, List.forall_mem_cons]
    exact ⟨trivial, trivial, trivial, trivial, trivial, trivial, Rule.isPlain_ofLiteral,
      echo _, echo _, wrap _, echo _, wrap _, echo _, wrap _, List.forall_mem_nil _⟩
  · have unfixed : ¬ ∀ source ∈ (run slowChain).fillingRules, ∀ filler ∈ source.2.filler?
        (run slowChain).signatures ((run slowChain).item? source.1) (run slowChain).fillers,
          filler.beats ((run slowChain).fillers.of? source.1) = false := by decide +kernel
    exact unfixed (isFixed_iff.mp fixed)

end Grammar

end PhraseGrammar
