import Mathlib.Data.List.Pairwise
import Mathlib.Logic.Function.Iterate
import PhraseGrammar.Proofs.Consistency
import PhraseGrammar.Proofs.Idempotence
import PhraseGrammar.Proofs.Orders

/-! What a derivation adds to the collapsed rules of a symbol: of all insertion rules that its
rounds offer the best ones, and then the transpositions. The order of the offers plays no part. -/

namespace PhraseGrammar

open Std

variable {κ : Type} [Cost κ]

structure PhraseRule.IsOffer (size : Nat) (rule : PhraseRule κ) : Prop extends rule.IsEliding where
  single : rule.symbols.length = 1
  child : ∀ child ∈ rule.elided, child.symbol.index < size

theorem PhraseRule.IsSound.isOffer {rule : PhraseRule κ} {size : Nat} {pair : Slot × Slot}
    (h : rule.IsSound size) (slots : rule.slots = [pair.1, pair.2])
    (abridged : rule.unabridged = false) (place : Place) (filler : Filler κ) :
    (rule.eliding pair place filler).IsOffer size where
  origin := rfl
  elided := rfl
  unabridged := abridged
  transpositionCost := rfl
  insertionCost := rfl
  single := rfl
  child child same := by
    obtain rfl := Option.some.inj same
    refine h.children _ ((mem_symbols_of_pair slots).mpr ?_)
    cases place with
    | first => exact .inl rfl
    | second => exact .inr rfl

namespace PhraseRule

variable [TransOrd κ] {nameOf : Symbol → String} {a b c : PhraseRule κ}

theorem compare_irrefl (ha : a.elided.isSome = true) : a.compare nameOf a ≠ .lt := by
  have same : a.compareFully nameOf a = .eq := ReflCmp.compare_self
  rw [compare_eq_compareFully nameOf ha ha, same]
  exact nofun

theorem compare_asymm (ha : a.elided.isSome = true) (hb : b.elided.isSome = true)
    (h : a.compare nameOf b = .lt) : b.compare nameOf a ≠ .lt := by
  rw [compare_eq_compareFully nameOf ha hb] at h
  rw [compare_eq_compareFully nameOf hb ha]
  exact OrientedCmp.not_lt_of_lt h

/-- What is better than a rule is better than all that the rule is not behind. -/
theorem compare_lt_trans (ha : a.elided.isSome = true) (hb : b.elided.isSome = true)
    (hc : c.elided.isSome = true) (less : a.compare nameOf b = .lt)
    (least : c.compare nameOf b ≠ .lt) : a.compare nameOf c = .lt := by
  rw [compare_eq_compareFully nameOf ha hb] at less
  rw [compare_eq_compareFully nameOf hc hb] at least
  rw [compare_eq_compareFully nameOf ha hc]
  exact TransCmp.lt_of_lt_of_isLE less 
    (OrientedCmp.isLE_of_isGE (Ordering.isGE_iff_ne_lt.mpr least))

theorem compare_eq_of_not_lt (ha : a.elided.isSome = true) (hb : b.elided.isSome = true)
    (less : a.compare nameOf b ≠ .lt) (more : b.compare nameOf a ≠ .lt) :
    a.compare nameOf b = .eq := by
  rw [compare_eq_compareFully nameOf ha hb] at less ⊢
  rw [compare_eq_compareFully nameOf hb ha] at more
  exact OrientedCmp.isLE_antisymm (OrientedCmp.isLE_of_isGE (Ordering.isGE_iff_ne_lt.mpr more))
    (OrientedCmp.isLE_of_isGE (Ordering.isGE_iff_ne_lt.mpr less))

end PhraseRule

variable {nameOf : Symbol → String} {base rules : List (Rule κ)}
  {offers : PhraseRule κ → Prop} {rule : PhraseRule κ}

/-- A rule is offered, no better one is, and its right-hand side is not there already. -/
structure IsBest (nameOf : Symbol → String) (base : List (Rule κ)) (offers : PhraseRule κ → Prop)
    (rule : PhraseRule κ) : Prop where
  offered : offers rule
  fresh : ∀ present ∈ base, present.side ≠ .phrase rule.symbols
  least : ∀ other, offers other → other.symbols = rule.symbols →
    other.compare nameOf rule ≠ .lt

structure KeepsBest (nameOf : Symbol → String) (base : List (Rule κ))
    (offers : PhraseRule κ → Prop) (rules : List (Rule κ)) : Prop where
  apart : Rule.Apart rules
  mem : ∀ rule, rule ∈ rules ↔
    rule ∈ base ∨ ∃ best, rule = .phrase best ∧ IsBest nameOf base offers best
  side : ∀ rule, offers rule → ∃ present ∈ rules, present.side = .phrase rule.symbols

omit [Cost κ] in
theorem Rule.Apart.eq_of_side {a b : Rule κ} (apart : Rule.Apart rules) (ha : a ∈ rules)
    (hb : b ∈ rules) (side : a.side = b.side) : a = b := by
  have : Std.Symm fun a b : Rule κ => a.side ≠ b.side := ⟨fun _ _ h => Ne.symm h⟩
  exact Classical.byContradiction fun other => List.Pairwise.forall apart ha hb other side

omit [Cost κ] in
theorem Rule.Apart.mem_replace {before after : List (Rule κ)} {old new x : Rule κ}
    (apart : Rule.Apart (before ++ old :: after)) :
    x ∈ before ++ new :: after ↔
      x = new ∨ x ∈ before ++ old :: after ∧ x.side ≠ old.side := by
  obtain ⟨-, tail, across⟩ := List.pairwise_append.mp apart
  have first : x ∈ before → x.side ≠ old.side := fun here =>
    across x here old List.mem_cons_self
  have last : x ∈ after → x.side ≠ old.side := fun here =>
    ((List.pairwise_cons.mp tail).1 x here).symm
  simp only [List.mem_append, List.mem_cons]
  constructor
  · rintro (here | rfl | here)
    · exact .inr ⟨.inl here, first here⟩
    · exact .inl rfl
    · exact .inr ⟨.inr (.inr here), last here⟩
  · rintro (rfl | ⟨here | rfl | here, other⟩)
    · exact .inr (.inl rfl)
    · exact .inl here
    · exact absurd rfl other
    · exact .inr (.inr here)

namespace IsBest

variable {other best : PhraseRule κ}

theorem offer_of_ne (apart : other.symbols ≠ rule.symbols) :
    IsBest nameOf base (fun other => offers other ∨ other = rule) other ↔
      IsBest nameOf base offers other := by
  constructor
  · rintro ⟨offered | rfl, fresh, least⟩
    · exact ⟨offered, fresh, fun third offered => least third (.inl offered)⟩
    · exact absurd rfl apart
  · rintro ⟨offered, fresh, least⟩
    refine ⟨.inl offered, fresh, ?_⟩
    rintro third (offered | rfl) symbols
    · exact least third offered symbols
    · exact absurd symbols.symm apart

variable [TransOrd κ] (elided : ∀ other, offers other → other.elided.isSome = true)

include elided

theorem offer_of_lt (given : rule.elided.isSome = true)
    (fresh : ∀ present ∈ base, present.side ≠ .phrase rule.symbols)
    (less : ∀ other, offers other → other.symbols = rule.symbols →
      rule.compare nameOf other = .lt) :
    IsBest nameOf base (fun other => offers other ∨ other = rule) other ↔
      other = rule ∨ other.symbols ≠ rule.symbols ∧ IsBest nameOf base offers other := by
  by_cases same : other.symbols = rule.symbols
  · rw [or_iff_left fun h => h.1 same]
    constructor
    · rintro ⟨offered | rfl, -, least⟩
      · exact absurd (less other offered same) (least rule (.inr rfl) same.symm)
      · rfl
    · rintro rfl
      refine ⟨.inr rfl, fresh, ?_⟩
      rintro third (offered | rfl) alike
      · exact PhraseRule.compare_asymm given (elided third offered) (less third offered alike)
      · exact PhraseRule.compare_irrefl given
  · rw [offer_of_ne same, and_iff_right same, or_iff_right]
    rintro rfl
    exact same rfl

/-- An offer that is not better than the best one decides nothing, for two that tie are one. -/
theorem offer_of_not_lt [LawfulEqOrd κ] {size : Nat} (top : IsBest nameOf base offers best)
    (symbols : best.symbols = rule.symbols) (not_lt : rule.compare nameOf best ≠ .lt)
    (names : ∀ a b : Symbol, a.index < size → b.index < size → nameOf a = nameOf b → a = b)
    (here : best.IsOffer size) (given : rule.IsOffer size) :
    IsBest nameOf base (fun other => offers other ∨ other = rule) other ↔
      IsBest nameOf base offers other := by
  by_cases same : other.symbols = rule.symbols
  · constructor
    · rintro ⟨offered | rfl, fresh, least⟩
      · exact ⟨offered, fresh, fun third offered => least third (.inl offered)⟩
      · have tie := PhraseRule.compare_eq_of_not_lt here.elided given.elided
          (least best (.inl top.offered) symbols) not_lt
        have one := here.eq_of_compare given.toIsEliding symbols
          (fun x hx y hy => names _ _ (here.child x hx) (given.child y hy)) tie
        exact one ▸ top
    · intro held
      refine ⟨.inl held.offered, held.fresh, ?_⟩
      rintro third (offered | rfl) alike
      · exact held.least third offered alike
      · intro less
        refine not_lt (PhraseRule.compare_lt_trans given.elided (elided other held.offered)
          here.elided less ?_)
        exact held.least best top.offered (symbols.trans same.symm)
  · exact offer_of_ne same

end IsBest

namespace KeepsBest

theorem refl (apart : Rule.Apart base) : KeepsBest nameOf base (fun _ => False) base where
  apart := apart
  mem _ := (or_iff_left fun ⟨_, _, best⟩ => best.offered).symm
  side _ none := none.elim

variable [TransOrd κ]

theorem add (h : KeepsBest nameOf base offers rules)
    (elided : ∀ other, offers other → other.elided.isSome = true)
    (given : rule.elided.isSome = true)
    (fresh : ∀ present ∈ rules, present.side ≠ .phrase rule.symbols) :
    KeepsBest nameOf base (fun other => offers other ∨ other = rule)
      (rules ++ [.phrase rule]) := by
  have none : ∀ other, offers other → other.symbols ≠ rule.symbols := by
    intro other offered same
    obtain ⟨present, there, side⟩ := h.side other offered
    exact fresh present there (same ▸ side)
  have best : ∀ other, IsBest nameOf base (fun other => offers other ∨ other = rule) other ↔
      other = rule ∨ other.symbols ≠ rule.symbols ∧ IsBest nameOf base offers other := fun other =>
    IsBest.offer_of_lt elided given
      (fun present there => fresh present ((h.mem _).mpr (.inl there)))
      fun third offered same => absurd same (none third offered)
  refine ⟨?_, fun x => ?_, ?_⟩
  · refine List.pairwise_append.mpr ⟨h.apart, List.pairwise_singleton _ _, fun a ha b hb => ?_⟩
    exact List.mem_singleton.mp hb ▸ fresh a ha
  · simp only [List.mem_append, List.mem_singleton, h.mem, best]
    constructor
    · rintro ((old | ⟨other, rfl, held⟩) | rfl)
      · exact .inl old
      · exact .inr ⟨other, rfl, .inr ⟨none other held.offered, held⟩⟩
      · exact .inr ⟨rule, rfl, .inl rfl⟩
    · rintro (old | ⟨other, rfl, rfl | ⟨-, held⟩⟩)
      · exact .inl (.inl old)
      · exact .inr rfl
      · exact .inl (.inr ⟨other, rfl, held⟩)
  · rintro other (offered | rfl)
    · obtain ⟨present, there, side⟩ := h.side other offered
      exact ⟨present, List.mem_append_left _ there, side⟩
    · exact ⟨_, List.mem_append_right _ (List.mem_singleton_self _), rfl⟩

theorem replace {before after : List (Rule κ)} {present : PhraseRule κ}
    (h : KeepsBest nameOf base offers (before ++ .phrase present :: after))
    (top : IsBest nameOf base offers present) (symbols : present.symbols = rule.symbols)
    (elided : ∀ other, offers other → other.elided.isSome = true)
    (given : rule.elided.isSome = true) (less : rule.compare nameOf present = .lt) :
    KeepsBest nameOf base (fun other => offers other ∨ other = rule)
      (before ++ .phrase rule :: after) := by
  have lower : ∀ other, offers other → other.symbols = rule.symbols →
      rule.compare nameOf other = .lt := fun other offered same =>
    PhraseRule.compare_lt_trans given (elided _ top.offered) (elided other offered) less
      (top.least other offered (same.trans symbols.symm))
  have best : ∀ other, IsBest nameOf base (fun other => offers other ∨ other = rule) other ↔
      other = rule ∨ other.symbols ≠ rule.symbols ∧ IsBest nameOf base offers other := fun other =>
    IsBest.offer_of_lt elided given (symbols ▸ top.fresh) lower
  have side : (Rule.phrase present).side = .phrase rule.symbols := congrArg Side.phrase symbols
  have sides : (before ++ .phrase rule :: after).map Rule.side =
      (before ++ .phrase present :: after).map Rule.side := by
    simp only [List.map_append, List.map_cons, side]
    rfl
  refine ⟨?_, fun x => ?_, fun other offered => ?_⟩
  · have apart := List.pairwise_map.mpr h.apart
    exact List.pairwise_map.mp (sides ▸ apart)
  · rw [h.apart.mem_replace, h.mem, side]
    simp only [best]
    constructor
    · rintro (rfl | ⟨old | ⟨other, rfl, held⟩, apart⟩)
      · exact .inr ⟨rule, rfl, .inl rfl⟩
      · exact .inl old
      · exact .inr ⟨other, rfl, .inr ⟨fun same => apart (congrArg _ same), held⟩⟩
    · rintro (old | ⟨other, rfl, rfl | ⟨apart, held⟩⟩)
      · exact .inr ⟨.inl old, symbols ▸ top.fresh x old⟩
      · exact .inl rfl
      · exact .inr ⟨.inr ⟨other, rfl, held⟩, fun alike => apart (Side.phrase.inj alike)⟩
  · have sided : .phrase other.symbols ∈ (before ++ .phrase rule :: after).map Rule.side := by
      rcases offered with offered | rfl
      · rw [sides]
        exact List.mem_map.mpr (h.side other offered)
      · exact List.mem_map_of_mem (List.mem_append_right _ List.mem_cons_self)
    exact List.mem_map.mp sided

theorem decline [LawfulEqOrd κ] {size : Nat} (h : KeepsBest nameOf base offers rules)
    (names : ∀ a b : Symbol, a.index < size → b.index < size → nameOf a = nameOf b → a = b)
    (eliding : ∀ other, offers other → other.IsOffer size) (given : rule.IsOffer size)
    {present : Rule κ} (there : present ∈ rules) (side : present.side = .phrase rule.symbols)
    (kept : rule.supersedes nameOf present = false) :
    KeepsBest nameOf base (fun other => offers other ∨ other = rule) rules := by
  have best : ∀ other, IsBest nameOf base (fun other => offers other ∨ other = rule) other ↔
      IsBest nameOf base offers other := by
    intro other
    rcases (h.mem present).mp there with old | ⟨top, rfl, held⟩
    · by_cases same : other.symbols = rule.symbols
      · have taken : present.side = .phrase other.symbols := same ▸ side
        exact ⟨fun best => absurd taken (best.fresh present old),
          fun best => absurd taken (best.fresh present old)⟩
      · exact IsBest.offer_of_ne same
    · have here := eliding top held.offered
      have not_lt : rule.compare nameOf top ≠ .lt := by
        intro less
        simp only [PhraseRule.supersedes, here.origin, less] at kept
        cases kept
      exact IsBest.offer_of_not_lt (fun other offered => (eliding other offered).elided) held
        (Side.phrase.inj side) not_lt names here given
  refine ⟨h.apart, fun x => ?_, ?_⟩
  · simp only [h.mem, best]
  · rintro other (offered | rfl)
    · exact h.side other offered
    · exact ⟨present, there, side⟩

theorem offerRule [LawfulEqOrd κ] {size : Nat} (h : KeepsBest nameOf base offers rules)
    (plain : ∀ present ∈ base, present.origin ≠ .insertion)
    (names : ∀ a b : Symbol, a.index < size → b.index < size → nameOf a = nameOf b → a = b)
    (eliding : ∀ other, offers other → other.IsOffer size) (given : rule.IsOffer size) :
    KeepsBest nameOf base (fun other => offers other ∨ other = rule)
      (offerRule nameOf rule rules).1 := by
  rcases offerRule_cases nameOf rule rules with
    ⟨fresh, done⟩ | ⟨before, present, after, rfl, symbols, origin, less, done⟩ |
      ⟨⟨present, there, side, kept⟩, done⟩
  · rw [done]
    exact h.add (fun other offered => (eliding other offered).elided) given.elided fresh
  · rw [done]
    have middle : .phrase present ∈ before ++ .phrase present :: after :=
      List.mem_append_right _ List.mem_cons_self
    rcases (h.mem _).mp middle with old | ⟨best, same, held⟩
    · exact absurd origin (plain _ old)
    · obtain rfl := Rule.phrase.inj same
      exact h.replace held symbols (fun other offered => (eliding other offered).elided)
        given.elided less
  · rw [done]
    exact h.decline names eliding given there side kept

end KeepsBest

namespace Grammar

variable {grammar grown : Grammar κ} {offers : Symbol → PhraseRule κ → Prop}

structure GrowsBest (grammar : Grammar κ) (offers : Symbol → PhraseRule κ → Prop)
    (grown : Grammar κ) : Prop where
  bare : grown.bare = grammar.bare
  eliding : ∀ symbol rule, offers symbol rule → rule.IsOffer grammar.size
  rules : ∀ symbol, KeepsBest grammar.nameOf (grammar.rulesOf symbol) (offers symbol)
    (grown.rulesOf symbol)

theorem GrowsBest.congr {offers' : Symbol → PhraseRule κ → Prop}
    (h : grammar.GrowsBest offers grown)
    (same : ∀ symbol rule, offers symbol rule ↔ offers' symbol rule) :
    grammar.GrowsBest offers' grown := by
  have alike : offers = offers' := by
    funext symbol rule
    exact propext (same symbol rule)
  exact alike ▸ h

def afterRounds (grammar : Grammar κ) (rounds : Nat) : Grammar κ :=
  (fun grammar => grammar.insertionRound.1)^[rounds] grammar

theorem afterRounds_succ (grammar : Grammar κ) (rounds : Nat) :
    grammar.afterRounds (rounds + 1) = (grammar.afterRounds rounds).insertionRound.1 :=
  Function.iterate_succ_apply' _ rounds grammar

def Inserts (grammar : Grammar κ) (rounds : Nat) (symbol : Symbol) (rule : PhraseRule κ) : Prop :=
  ∃ n < rounds, ∃ pair, .phrase pair ∈ grammar.rulesOf symbol ∧
    pair.insertion? (grammar.afterRounds n).fillers = some rule

theorem insertionRounds_fst (rounds : Nat) (grammar : Grammar κ) (tally : Tally) :
    (insertionRounds rounds grammar tally).1 = grammar.afterRounds rounds := by
  induction rounds generalizing grammar tally with
  | zero => rfl
  | succ rounds ih =>
    rw [insertionRounds_succ]
    split
    case isTrue settled =>
      have none : grammar.insertionRound.2 = .none := of_decide_eq_true settled
      have fixed : grammar.insertionRound.1 = grammar :=
        congrArg Prod.fst (insertionRound_of_none none)
      rw [fixed]
      exact (Function.iterate_fixed fixed (rounds + 1)).symm
    case isFalse =>
      rw [ih]
      exact (Function.iterate_succ_apply _ rounds grammar).symm

/-- Only pairs that were there before the rounds are offered in another form. -/
theorem GrowsBest.mem_insertionOffers (h : grammar.GrowsBest offers grown) {best : Fillers κ}
    {symbol : Symbol} {rule : PhraseRule κ} :
    (symbol, rule) ∈ grown.insertionOffers best ↔
      ∃ pair, .phrase pair ∈ grammar.rulesOf symbol ∧ pair.insertion? best = some rule := by
  rw [Grammar.mem_insertionOffers]
  refine exists_congr fun pair => and_congr_left fun made => ?_
  rw [(h.rules symbol).mem]
  refine or_iff_left ?_
  rintro ⟨other, same, held⟩
  obtain rfl := Rule.phrase.inj same
  have authored := (PhraseRule.insertion?_eq_some.mp made).1
  exact nomatch authored.symm.trans (h.eliding symbol pair held.offered).origin

section Rounds

variable [TransOrd κ] [LawfulEqOrd κ] (sound : grammar.IsSound)
  (plain : grammar.AllRules fun rule => rule.origin ≠ .insertion)

include sound plain

theorem GrowsBest.offer {state : Grammar κ × Changes} (h : grammar.GrowsBest offers state.1)
    {source : Symbol × PhraseRule κ} (known : source.1.index < grammar.size)
    (given : source.2.IsOffer grammar.size) :
    grammar.GrowsBest (fun symbol rule => offers symbol rule ∨ (symbol, rule) = source)
      (offer state source).1 where
  bare := by rw [offer_fst, bare_setRules, h.bare]
  eliding symbol rule := by
    rintro (offered | rfl)
    · exact h.eliding symbol rule offered
    · exact given
  rules symbol := by
    have nameOf : state.1.nameOf = grammar.nameOf := funext (nameOf_eq_of_bare h.bare)
    have size : state.1.size = grammar.size := size_eq_of_bare h.bare
    rw [offer_fst, nameOf]
    by_cases here : symbol = source.1
    · subst here
      rw [rulesOf_setRules_self (size ▸ known)]
      have kept := (h.rules source.1).offerRule (plain source.1)
        (fun _ _ => sound.nameOf_inj) (h.eliding source.1) given
      simpa only [Prod.ext_iff, true_and] using kept
    · rw [rulesOf_setRules_of_ne here]
      simpa only [Prod.ext_iff, here, false_and, or_false] using h.rules symbol

theorem GrowsBest.foldl {sources : List (Symbol × PhraseRule κ)} {state : Grammar κ × Changes}
    (h : grammar.GrowsBest offers state.1)
    (given : ∀ source ∈ sources, source.1.index < grammar.size ∧ source.2.IsOffer grammar.size) :
    grammar.GrowsBest (fun symbol rule => offers symbol rule ∨ (symbol, rule) ∈ sources)
      (sources.foldl Grammar.offer state).1 := by
  induction sources generalizing offers state with
  | nil => exact h.congr fun symbol rule => (or_iff_left List.not_mem_nil).symm
  | cons source rest ih =>
    obtain ⟨⟨known, head⟩, tail⟩ := List.forall_mem_cons.mp given
    refine (ih (h.offer sound plain known head) tail).congr fun symbol rule => ?_
    rw [List.mem_cons, or_assoc]

theorem growsBest_afterRounds (rounds : Nat) :
    grammar.GrowsBest (grammar.Inserts rounds) (grammar.afterRounds rounds) := by
  induction rounds with
  | zero =>
    refine ⟨rfl, fun _ _ ⟨_, before, _⟩ => absurd before (Nat.not_lt_zero _), fun symbol => ?_⟩
    have none : grammar.Inserts 0 symbol = fun _ => False := by
      funext rule
      exact propext ⟨fun ⟨_, before, _⟩ => Nat.not_lt_zero _ before, False.elim⟩
    rw [none]
    exact .refl (sound.apart symbol)
  | succ rounds ih =>
    rw [afterRounds_succ]
    have offered : ∀ source ∈ (grammar.afterRounds rounds).insertionOffers
        (grammar.afterRounds rounds).fillers,
        source.1.index < grammar.size ∧ source.2.IsOffer grammar.size := by
      intro source mem
      obtain ⟨rule, present, made⟩ := ih.mem_insertionOffers.mp mem
      obtain ⟨-, abridged, pair, place, filler, slots, -, same⟩ :=
        PhraseRule.insertion?_eq_some.mp made
      exact ⟨lt_size_of_mem_rulesOf present,
        same ▸ PhraseRule.IsSound.isOffer (sound.rule present) slots abridged place filler⟩
    have grows : grammar.GrowsBest (grammar.Inserts rounds)
      (grammar.afterRounds rounds, Changes.none).1 := ih
    refine (grows.foldl sound plain offered).congr fun symbol rule => ?_
    rw [ih.mem_insertionOffers]
    constructor
    · rintro (⟨n, before, found⟩ | found)
      · exact ⟨n, Nat.lt_succ_of_lt before, found⟩
      · exact ⟨rounds, Nat.lt_succ_self rounds, found⟩
    · rintro ⟨n, before, found⟩
      rcases Nat.lt_succ_iff_lt_or_eq.mp before with before | rfl
      · exact .inl ⟨n, before, found⟩
      · exact .inr found

end Rounds

structure IsTransposed (base : List (Rule κ)) (rule : PhraseRule κ) : Prop where
  offered : ∃ pair, .phrase pair ∈ base ∧ pair.transposition? = some rule
  fresh : ∀ present ∈ base, present.side ≠ .phrase rule.symbols

omit [Cost κ] in
theorem mem_rulesOf_foldl_addAbsent {sources : List (Symbol × PhraseRule κ)}
    {state : Grammar κ × Nat} (known : ∀ source ∈ sources, source.1.index < state.1.size)
    (one : ∀ a ∈ sources, ∀ b ∈ sources, a.1 = b.1 → a.2.symbols = b.2.symbols → a = b)
    {symbol : Symbol} {rule : Rule κ} :
    rule ∈ (sources.foldl addAbsent state).1.rulesOf symbol ↔
      rule ∈ state.1.rulesOf symbol ∨ ∃ made, rule = .phrase made ∧ (symbol, made) ∈ sources ∧
        ∀ present ∈ state.1.rulesOf symbol, present.side ≠ .phrase made.symbols := by
  induction sources generalizing state with
  | nil => exact (or_iff_left fun ⟨_, _, mem, _⟩ => absurd mem List.not_mem_nil).symm
  | cons source rest ih =>
    have tail : ∀ a ∈ rest, ∀ b ∈ rest, a.1 = b.1 → a.2.symbols = b.2.symbols → a = b :=
      fun a ha b hb => one a (List.mem_cons_of_mem _ ha) b (List.mem_cons_of_mem _ hb)
    have more : ∀ other ∈ rest, other.1.index < state.1.size :=
      fun other mem => known other (List.mem_cons_of_mem _ mem)
    rw [List.foldl_cons]
    rcases addAbsent_cases state source with ⟨⟨present, there, side⟩, done⟩ | ⟨fresh, done⟩
    · rw [done, ih more tail]
      refine or_congr_right (exists_congr fun made => and_congr_right fun _ => ?_)
      refine and_congr_left fun fresh => ?_
      rw [List.mem_cons, or_iff_right]
      rintro rfl
      exact fresh present there side
    · have size := size_addAbsent state source
      have added : ∀ other, other ∈ (addAbsent state source).1.rulesOf symbol ↔
          other ∈ state.1.rulesOf symbol ∨ symbol = source.1 ∧ other = .phrase source.2 := by
        intro other
        rw [done, mem_rulesOf_append (known source List.mem_cons_self)]
      rw [ih (size ▸ more) tail, added, or_assoc]
      refine or_congr_right ⟨?_, ?_⟩
      · rintro (⟨rfl, rfl⟩ | ⟨made, rfl, mem, absent⟩)
        · exact ⟨source.2, rfl, List.mem_cons_self, fresh⟩
        · exact ⟨made, rfl, List.mem_cons_of_mem _ mem,
            fun present there => absent present ((added present).mpr (.inl there))⟩
      · rintro ⟨made, rfl, mem, absent⟩
        rcases List.mem_cons.mp mem with rfl | later
        · exact .inl ⟨rfl, rfl⟩
        · by_cases same : symbol = source.1 ∧ source.2.symbols = made.symbols
          · obtain rfl := one _ mem source List.mem_cons_self same.1 same.2.symm
            exact .inl ⟨rfl, rfl⟩
          · refine .inr ⟨made, rfl, later, fun present there => ?_⟩
            rcases (added present).mp there with old | ⟨here, rfl⟩
            · exact absent present old
            · exact fun side => same ⟨here, Side.phrase.inj side⟩

theorem mem_rulesOf_transpose (apart : ∀ symbol, Rule.Apart (grammar.rulesOf symbol))
    {symbol : Symbol} {rule : Rule κ} :
    rule ∈ grammar.transpose.1.rulesOf symbol ↔
      rule ∈ grammar.rulesOf symbol ∨
        ∃ made, rule = .phrase made ∧ IsTransposed (grammar.rulesOf symbol) made := by
  have known : ∀ source ∈ grammar.transpositionOffers, source.1.index < grammar.size := by
    intro source mem
    obtain ⟨pair, present, -⟩ := mem_transpositionOffers.mp mem
    exact lt_size_of_mem_rulesOf present
  have one : ∀ a ∈ grammar.transpositionOffers, ∀ b ∈ grammar.transpositionOffers,
      a.1 = b.1 → a.2.symbols = b.2.symbols → a = b := by
    rintro ⟨here, a⟩ ha ⟨there, b⟩ hb rfl same
    obtain ⟨x, hx, madeA⟩ := mem_transpositionOffers.mp ha
    obtain ⟨y, hy, madeB⟩ := mem_transpositionOffers.mp hb
    obtain ⟨-, p, c, slotsX, -, rfl⟩ := PhraseRule.transposition?_eq_some.mp madeA
    obtain ⟨-, q, d, slotsY, -, rfl⟩ := PhraseRule.transposition?_eq_some.mp madeB
    have symbols : x.symbols = y.symbols := by
      have swapped : [p.2.symbol, p.1.symbol] = [q.2.symbol, q.1.symbol] := same
      obtain ⟨second, first⟩ := List.cons_eq_cons.mp swapped
      rw [PhraseRule.symbols, PhraseRule.symbols, slotsX, slotsY]
      simp only [List.map_cons, List.map_nil, second, List.singleton_inj.mp first]
    obtain rfl := Rule.phrase.inj ((apart here).eq_of_side hx hy (congrArg Side.phrase symbols))
    exact congrArg _ (Option.some.inj (madeA.symm.trans madeB))
  have known : ∀ source ∈ grammar.transpositionOffers, source.1.index < (grammar, 0).1.size := known
  refine (mem_rulesOf_foldl_addAbsent known one).trans ?_
  refine or_congr_right (exists_congr fun made => and_congr_right fun _ => ?_)
  rw [mem_transpositionOffers]
  exact ⟨fun h => ⟨h.1, h.2⟩, fun h => ⟨h.offered, h.fresh⟩⟩

theorem GrowsBest.isTransposed_iff (h : grammar.GrowsBest offers grown) {symbol : Symbol}
    {made : PhraseRule κ} :
    IsTransposed (grown.rulesOf symbol) made ↔ IsTransposed (grammar.rulesOf symbol) made := by
  have old : ∀ {rule}, rule ∈ grammar.rulesOf symbol → rule ∈ grown.rulesOf symbol :=
    fun mem => ((h.rules symbol).mem _).mpr (.inl mem)
  constructor
  · rintro ⟨⟨pair, there, swapped⟩, fresh⟩
    refine ⟨⟨pair, ?_, swapped⟩, fun present mem => fresh present (old mem)⟩
    rcases ((h.rules symbol).mem _).mp there with there | ⟨best, same, held⟩
    · exact there
    · obtain rfl := Rule.phrase.inj same
      have authored := (PhraseRule.transposition?_eq_some.mp swapped).1
      exact nomatch authored.symm.trans (h.eliding symbol pair held.offered).origin
  · rintro ⟨⟨pair, there, swapped⟩, fresh⟩
    refine ⟨⟨pair, old there, swapped⟩, fun present mem => ?_⟩
    rcases ((h.rules symbol).mem _).mp mem with there | ⟨best, rfl, held⟩
    · exact fresh present there
    · -- Insertion rules have one child, and transpositions two.
      obtain ⟨-, pair, cost, -, -, rfl⟩ := PhraseRule.transposition?_eq_some.mp swapped
      intro same
      have single := (h.eliding symbol best held.offered).single
      rw [Side.phrase.inj same] at single
      exact absurd single (by decide : (2 : Nat) ≠ 1)

theorem derive_fst {left : Grammar κ} {count : Nat} (h : grammar.collapse = (left, .ok count)) :
    grammar.derive.1 = (left.afterRounds (left.size + 1)).transpose.1 := by
  rcases derive_eq grammar with ⟨other, fault, same, -⟩ | ⟨other, counted, same, done⟩
  · exact nomatch (Prod.mk.inj (h.symm.trans same)).2
  · obtain ⟨rfl, -⟩ := Prod.mk.inj (h.symm.trans same)
    rw [done, insertionRounds_fst]

/-- An insertion rule that is best of all that are offered while deriving. -/
abbrev BestInsertion (grammar : Grammar κ) (symbol : Symbol) (rule : PhraseRule κ) : Prop :=
  IsBest grammar.nameOf (grammar.rulesOf symbol) (grammar.Inserts (grammar.size + 1) symbol) rule

/-- What a derivation leaves: the collapsed rules, with the best of all insertion rules that are
offered, and with the transpositions. -/
theorem mem_rulesOf_derive [TransOrd κ] [LawfulEqOrd κ] {left : Grammar κ} {count : Nat}
    (collapsed : grammar.collapse = (left, .ok count)) (sound : left.IsSound)
    (plain : left.AllRules fun rule => rule.origin ≠ .insertion) {symbol : Symbol}
    {rule : Rule κ} :
    rule ∈ grammar.derive.1.rulesOf symbol ↔
      rule ∈ left.rulesOf symbol ∨ ∃ made, rule = .phrase made ∧
        (left.BestInsertion symbol made ∨ IsTransposed (left.rulesOf symbol) made) := by
  have grows := growsBest_afterRounds sound plain (left.size + 1)
  rw [derive_fst collapsed, mem_rulesOf_transpose fun symbol => (grows.rules symbol).apart,
    (grows.rules symbol).mem, or_assoc]
  simp only [grows.isTransposed_iff, ← exists_or, ← and_or_left]

theorem origin_of_inserts {rounds : Nat} {symbol : Symbol} {rule : PhraseRule κ}
    (h : grammar.Inserts rounds symbol rule) : rule.origin = .insertion := by
  obtain ⟨n, -, pair, -, made⟩ := h
  obtain ⟨-, -, slots, place, filler, -, -, rfl⟩ := PhraseRule.insertion?_eq_some.mp made
  rfl

theorem IsTransposed.origin {base : List (Rule κ)} {rule : PhraseRule κ}
    (h : IsTransposed base rule) : rule.origin = .transposition := by
  obtain ⟨pair, -, made⟩ := h.offered
  obtain ⟨-, slots, cost, -, -, rfl⟩ := PhraseRule.transposition?_eq_some.mp made
  rfl

section Derived

variable [TransOrd κ] [LawfulEqOrd κ] {left : Grammar κ} {count : Nat}
  (collapsed : grammar.collapse = (left, .ok count)) (sound : left.IsSound)
  (plain : left.AllRules fun rule => rule.origin ≠ .insertion) {symbol : Symbol}

include collapsed sound plain

theorem mem_rulesOf_derive_of_ne {rule : Rule κ} (origin : rule.origin ≠ .insertion) :
    rule ∈ grammar.derive.1.rulesOf symbol ↔
      rule ∈ left.rulesOf symbol ∨
        ∃ made, rule = .phrase made ∧ IsTransposed (left.rulesOf symbol) made := by
  rw [mem_rulesOf_derive collapsed sound plain]
  refine or_congr_right (exists_congr fun made => and_congr_right ?_)
  rintro rfl
  exact or_iff_right fun best => origin (origin_of_inserts best.offered)

theorem phrase_mem_derive {made : PhraseRule κ} (origin : made.origin = .insertion) :
    .phrase made ∈ grammar.derive.1.rulesOf symbol ↔ left.BestInsertion symbol made := by
  have fresh : .phrase made ∉ left.rulesOf symbol := fun old => plain symbol _ old origin
  rw [mem_rulesOf_derive collapsed sound plain, or_iff_right fresh]
  constructor
  · rintro ⟨_, same, best | swapped⟩
    · exact Rule.phrase.inj same ▸ best
    · obtain rfl := Rule.phrase.inj same
      exact nomatch origin.symm.trans swapped.origin
  · exact fun best => ⟨made, rfl, .inl best⟩

end Derived

end Grammar

end PhraseGrammar
