import Mathlib.Data.Set.Card
import PhraseGrammar.Cost.Exact
import PhraseGrammar.Proofs.Electing
import PhraseGrammar.Proofs.Settling

/-! What one round of insertion does to each right-hand side of each symbol. Of all rules that are
offered for it the best one comes, unless a rule stays that is there before. Offers never tie, so
that their order plays no part in which rules there are; it is chosen such that each right-hand side
gets at most one new rule. -/

namespace PhraseGrammar

open Std

variable {κ : Type} [Cost κ]

/-- What an offer makes of the rule with its right-hand side, which there may be or not. -/
def offerTo (nameOf : Symbol → String) (rule : PhraseRule κ) :
    Option (Rule κ) → Option (Rule κ) × Offer
  | none => (some (.phrase rule), .added)
  | some present =>
    if rule.supersedes nameOf present then (some (.phrase rule), .replaced)
    else (some present, .declined)

variable {nameOf : Symbol → String} {offers : PhraseRule κ → Prop} {rule least : PhraseRule κ}
  {before after : Option (Rule κ)}

structure IsForemost (nameOf : Symbol → String) (offers : PhraseRule κ → Prop)
    (rule : PhraseRule κ) : Prop where
  offered : offers rule
  less : ∀ other, offers other → other ≠ rule → rule.compare nameOf other = .lt

/-- What offers for one right-hand side make of the rule that has it: none comes where there was
one that is no insertion rule, or one that is not behind any of them. -/
inductive LeadsTo (nameOf : Symbol → String) (offers : PhraseRule κ → Prop) :
    Option (Rule κ) → Option (Rule κ) → Prop
  | untouched {present : Option (Rule κ)} : (∀ made, ¬ offers made) →
      LeadsTo nameOf offers present present
  | added {least : PhraseRule κ} : IsForemost nameOf offers least →
      LeadsTo nameOf offers none (some (.phrase least))
  | replaced {present least : PhraseRule κ} : IsForemost nameOf offers least →
      present.origin = .insertion → least.compare nameOf present = .lt →
      LeadsTo nameOf offers (some (.phrase present)) (some (.phrase least))
  | kept {present least : PhraseRule κ} : IsForemost nameOf offers least →
      present.origin = .insertion → least.compare nameOf present ≠ .lt →
      LeadsTo nameOf offers (some (.phrase present)) (some (.phrase present))
  | other {present : Rule κ} : present.origin ≠ .insertion →
      LeadsTo nameOf offers (some present) (some present)

/-- Offers that may compete: insertion rules that say what they leave out, no two of which tie. -/
structure AreRivals (nameOf : Symbol → String) (offers : PhraseRule κ → Prop) : Prop where
  origin : ∀ {made}, offers made → made.origin = .insertion
  elided : ∀ {made}, offers made → made.elided.isSome = true
  eq_of_tie : ∀ {a b}, offers a → offers b → a.compare nameOf b = .eq → a = b

section OfferTo

variable {present : PhraseRule κ}

theorem offerTo_of_origin {present : Rule κ} (origin : present.origin ≠ .insertion) :
    offerTo nameOf rule (some present) = (some present, .declined) := by
  refine if_neg fun better => origin ?_
  cases present with
  | word word => exact nomatch better
  | phrase present =>
    rw [PhraseRule.supersedes, Bool.and_eq_true, decide_eq_true_eq] at better
    exact better.1

theorem offerTo_of_lt (origin : present.origin = .insertion)
    (less : rule.compare nameOf present = .lt) :
    offerTo nameOf rule (some (.phrase present)) = (some (.phrase rule), .replaced) := by
  refine if_pos ?_
  rw [PhraseRule.supersedes, origin, less]
  rfl

theorem offerTo_of_not_lt (not_lt : rule.compare nameOf present ≠ .lt) :
    offerTo nameOf rule (some (.phrase present)) = (some (.phrase present), .declined) :=
  if_neg (Bool.not_eq_true _ ▸ PhraseRule.supersedes_eq_false.mpr fun _ => not_lt)

end OfferTo

section Find

variable {side : Side} {first : Rule κ} {rest : List (Rule κ)}

omit [Cost κ] in
theorem find?_side_of_eq (same : first.side = side) :
    (first :: rest).find? (fun present => present.side = side) = some first :=
  List.find?_cons_of_pos (decide_eq_true same)

omit [Cost κ] in
theorem find?_side_of_ne (apart : first.side ≠ side) :
    (first :: rest).find? (fun present => present.side = side) =
      rest.find? fun present => present.side = side :=
  List.find?_cons_of_neg (by rwa [decide_eq_true_eq])

theorem find?_offerRule (nameOf : Symbol → String) (rule : PhraseRule κ) (rules : List (Rule κ)) :
    ((offerRule nameOf rule rules).1.find? (fun present => present.side = .phrase rule.symbols),
        (offerRule nameOf rule rules).2) =
      offerTo nameOf rule (rules.find? fun present => present.side = .phrase rule.symbols) := by
  have offered : (Rule.phrase rule).side = .phrase rule.symbols := rfl
  induction rules with
  | nil => exact Prod.ext (find?_side_of_eq offered) rfl
  | cons first rest ih =>
    rw [offerRule]
    by_cases same : first.side = .phrase rule.symbols
    · rw [if_pos same, find?_side_of_eq same, offerTo]
      split
      · exact Prod.ext (find?_side_of_eq offered) rfl
      · exact Prod.ext (find?_side_of_eq same) rfl
    · rw [if_neg same, find?_side_of_ne same, find?_side_of_ne same, ← ih]

theorem find?_offerRule_of_ne (nameOf : Symbol → String) {rule : PhraseRule κ}
    (apart : side ≠ .phrase rule.symbols) (rules : List (Rule κ)) :
    (offerRule nameOf rule rules).1.find? (fun present => present.side = side) =
      rules.find? fun present => present.side = side := by
  have other : (Rule.phrase rule).side ≠ side := apart.symm
  induction rules with
  | nil => exact find?_side_of_ne other
  | cons first rest ih =>
    rw [offerRule]
    by_cases same : first.side = .phrase rule.symbols
    · rw [if_pos same, find?_side_of_ne (same ▸ other)]
      split
      · exact find?_side_of_ne other
      · exact find?_side_of_ne (same ▸ other)
    · rw [if_neg same, List.find?_cons, List.find?_cons, ih]

end Find

theorem LeadsTo.eq_of_none (h : LeadsTo nameOf offers before after)
    (none : ¬ ∃ made, offers made) : after = before := by
  cases h with
  | untouched => rfl
  | added least => exact absurd ⟨_, least.offered⟩ none
  | replaced least => exact absurd ⟨_, least.offered⟩ none
  | kept => rfl
  | other => rfl

theorem IsForemost.of_none (none : ∀ made, ¬ offers made) :
    IsForemost nameOf (fun made => offers made ∨ made = rule) rule := by
  refine ⟨.inr rfl, ?_⟩
  rintro other (offered | rfl) apart
  · exact absurd offered (none other)
  · exact absurd rfl apart

/-- The best offer leads by itself to what all of them lead to. -/
theorem IsForemost.leadsTo (h : IsForemost nameOf offers rule) (before : Option (Rule κ)) :
    LeadsTo nameOf offers before (offerTo nameOf rule before).1 := by
  match before with
  | none => exact .added h
  | some present =>
    by_cases origin : present.origin = .insertion
    · cases present with
      | word word => exact nomatch origin
      | phrase present =>
        by_cases less : rule.compare nameOf present = .lt
        · rw [offerTo_of_lt origin less]
          exact .replaced h origin less
        · rw [offerTo_of_not_lt less]
          exact .kept h origin less
    · rw [offerTo_of_origin origin]
      exact .other origin

section Rivals

variable [TransOrd κ] (rivals : AreRivals nameOf fun made => offers made ∨ made = rule)

include rivals

namespace IsForemost

theorem offer_of_lt (h : IsForemost nameOf offers least)
    (less : rule.compare nameOf least = .lt) :
    IsForemost nameOf (fun made => offers made ∨ made = rule) rule := by
  refine ⟨.inr rfl, ?_⟩
  rintro other (offered | rfl) apart
  · by_cases same : other = least
    · exact same ▸ less
    · have given := rivals.elided (.inl offered)
      have here := rivals.elided (.inl h.offered)
      exact PhraseRule.compare_lt_trans (rivals.elided (.inr rfl)) here given less
        (PhraseRule.compare_asymm here given (h.less other offered same))
  · exact absurd rfl apart

theorem offer_of_not_lt (h : IsForemost nameOf offers least)
    (not_lt : rule.compare nameOf least ≠ .lt) :
    IsForemost nameOf (fun made => offers made ∨ made = rule) least := by
  refine ⟨.inl h.offered, ?_⟩
  rintro other (offered | rfl) apart
  · exact h.less other offered apart
  · by_contra more
    refine apart (rivals.eq_of_tie (.inr rfl) (.inl h.offered) ?_)
    exact PhraseRule.compare_eq_of_not_lt (rivals.elided (.inr rfl))
      (rivals.elided (.inl h.offered)) not_lt more

end IsForemost

namespace LeadsTo

variable (known : ∀ present, before = some (.phrase present) → present.origin = .insertion →
  present.elided.isSome = true)

include known

/-- One more offer leads to what all of them together lead to. -/
theorem offer (h : LeadsTo nameOf offers before after) :
    LeadsTo nameOf (fun made => offers made ∨ made = rule) before
      (offerTo nameOf rule after).1 := by
  cases h with
  | untouched none => exact (IsForemost.of_none none).leadsTo before
  | @added top least =>
    by_cases less : rule.compare nameOf top = .lt
    · rw [offerTo_of_lt (rivals.origin (.inl least.offered)) less]
      exact .added (least.offer_of_lt rivals less)
    · rw [offerTo_of_not_lt less]
      exact .added (least.offer_of_not_lt rivals less)
  | @replaced present top least origin better =>
    by_cases less : rule.compare nameOf top = .lt
    · rw [offerTo_of_lt (rivals.origin (.inl least.offered)) less]
      refine .replaced (least.offer_of_lt rivals less) origin ?_
      have named := known present rfl origin
      have here := rivals.elided (.inl least.offered)
      exact PhraseRule.compare_lt_trans (rivals.elided (.inr rfl)) here named less
        (PhraseRule.compare_asymm here named better)
    · rw [offerTo_of_not_lt less]
      exact .replaced (least.offer_of_not_lt rivals less) origin better
  | @kept present top least origin worse =>
    have named := known present rfl origin
    have here := rivals.elided (.inl least.offered)
    have given := rivals.elided (.inr rfl)
    by_cases less : rule.compare nameOf present = .lt
    · rw [offerTo_of_lt origin less]
      refine .replaced (least.offer_of_lt rivals ?_) origin less
      exact PhraseRule.compare_lt_trans given named here less worse
    · rw [offerTo_of_not_lt less]
      by_cases lower : rule.compare nameOf top = .lt
      · exact .kept (least.offer_of_lt rivals lower) origin less
      · exact .kept (least.offer_of_not_lt rivals lower) origin worse
  | other origin =>
    rw [offerTo_of_origin origin]
    exact .other origin

theorem declines (h : LeadsTo nameOf offers before after) (some : ∃ made, offers made)
    (later : ∀ made, offers made → rule.compare nameOf made ≠ .lt) :
    offerTo nameOf rule after = (after, .declined) := by
  cases h with
  | untouched none =>
    obtain ⟨made, offered⟩ := some
    exact absurd offered (none made)
  | added least => exact offerTo_of_not_lt (later _ least.offered)
  | replaced least => exact offerTo_of_not_lt (later _ least.offered)
  | kept least origin not_lt =>
    refine offerTo_of_not_lt fun less => later _ least.offered ?_
    exact PhraseRule.compare_lt_trans (rivals.elided (.inr rfl)) (known _ rfl origin)
      (rivals.elided (.inl least.offered)) less not_lt
  | other origin => exact offerTo_of_origin origin

end LeadsTo

end Rivals

section Unique

variable [TransOrd κ] {first second : Option (Rule κ)}

theorem IsForemost.unique {other : PhraseRule κ} (rivals : AreRivals nameOf offers)
    (h : IsForemost nameOf offers rule) (h' : IsForemost nameOf offers other) : rule = other := by
  by_contra apart
  exact PhraseRule.compare_asymm (rivals.elided h.offered) (rivals.elided h'.offered)
    (h.less other h'.offered (Ne.symm apart)) (h'.less rule h.offered apart)

/-- What offers lead to depends on nothing else than on them and the rule that is there. -/
theorem LeadsTo.unique (rivals : AreRivals nameOf offers)
    (h : LeadsTo nameOf offers before first) (h' : LeadsTo nameOf offers before second) :
    first = second := by
  cases h with
  | untouched none => exact (h'.eq_of_none fun ⟨made, offered⟩ => none made offered).symm
  | added least =>
    cases h' with
    | untouched none => exact absurd least.offered (none _)
    | added least' => rw [least.unique rivals least']
  | replaced least origin less =>
    cases h' with
    | untouched none => exact absurd least.offered (none _)
    | replaced least' => rw [least.unique rivals least']
    | kept least' _ not_lt => exact absurd (least.unique rivals least' ▸ less) not_lt
    | other other => exact absurd origin other
  | kept least origin not_lt =>
    cases h' with
    | untouched => rfl
    | replaced least' _ less => exact absurd (least'.unique rivals least ▸ less) not_lt
    | kept => rfl
    | other => rfl
  | other origin =>
    cases h' with
    | untouched => rfl
    | replaced _ inserted => exact absurd inserted origin
    | kept => rfl
    | other => rfl

end Unique

/-- An insertion rule shows which children the pair has of which it is made. -/
theorem PhraseRule.Offers.symbols_eq {a b made : PhraseRule κ} {best : Fillers κ}
    (ha : a.Offers best made) (hb : b.Offers best made) : a.symbols = b.symbols := by
  obtain ⟨p, here, filler, slots, -, rfl⟩ := ha.elects
  obtain ⟨q, there, filler', slots', -, same⟩ := hb.elects
  obtain ⟨position, gone, -⟩ := Elided.mk.inj (Option.some.inj (congrArg PhraseRule.elided same))
  have stays : (there.other.of q).symbol = (here.other.of p).symbol :=
    List.singleton_inj.mp (congrArg PhraseRule.symbols same)
  rw [symbols, symbols, slots, slots']
  cases here <;> cases there
  · exact congrArg₂ (fun x y => [x, y]) gone.symm stays.symm
  · cases position
  · cases position
  · exact congrArg₂ (fun x y => [x, y]) stays.symm gone.symm

theorem AreRivals.mono {fewer : PhraseRule κ → Prop} (h : AreRivals nameOf offers)
    (among : ∀ made, fewer made → offers made) : AreRivals nameOf fewer where
  origin offered := h.origin (among _ offered)
  elided offered := h.elided (among _ offered)
  eq_of_tie a b := h.eq_of_tie (among _ a) (among _ b)

namespace Grammar

variable {grammar : Grammar κ} {state : Grammar κ × Changes} {source : Symbol × PhraseRule κ}
  {sources : List (Symbol × PhraseRule κ)} {place : Symbol × Side} {best : Fillers κ}

omit [Cost κ] in
def ruleAt? (grammar : Grammar κ) (place : Symbol × Side) : Option (Rule κ) :=
  (grammar.rulesOf place.1).find? fun present => present.side = place.2

omit [Cost κ] in
def target (source : Symbol × PhraseRule κ) : Symbol × Side :=
  (source.1, .phrase source.2.symbols)

theorem ruleAt?_offer (known : source.1.index < state.1.size) :
    (offer state source).1.ruleAt? (target source) =
        (offerTo state.1.nameOf source.2 (state.1.ruleAt? (target source))).1 ∧
      (offer state source).2 = state.2.record
        (offerTo state.1.nameOf source.2 (state.1.ruleAt? (target source))).2 := by
  have here := find?_offerRule state.1.nameOf source.2 (state.1.rulesOf source.1)
  unfold ruleAt? target
  rw [← here, offer_fst, rulesOf_setRules_self known]
  exact ⟨rfl, rfl⟩

theorem ruleAt?_offer_of_ne (apart : place ≠ target source) :
    (offer state source).1.ruleAt? place = state.1.ruleAt? place := by
  rw [offer_fst, ruleAt?, ruleAt?]
  by_cases here : place.1 = source.1
  · have side : place.2 ≠ .phrase source.2.symbols := fun same => apart (Prod.ext here same)
    rw [here]
    by_cases known : source.1.index < state.1.size
    · rw [rulesOf_setRules_self known, find?_offerRule_of_ne _ side]
    · have unknown := Nat.le_of_not_lt known
      rw [rulesOf_of_size_le unknown, rulesOf_of_size_le (by rwa [setRules, size_update])]
  · rw [rulesOf_setRules_of_ne here]

theorem bare_foldl (sources : List (Symbol × PhraseRule κ)) (state : Grammar κ × Changes) :
    (sources.foldl offer state).1.bare = state.1.bare :=
  List.foldlRecOn (motive := fun later : Grammar κ × Changes => later.1.bare = state.1.bare)
    sources offer rfl fun later same source _ => by rw [offer_fst, bare_setRules, same]

omit [Cost κ] in
def OffersAt (sources : List (Symbol × PhraseRule κ)) (place : Symbol × Side)
    (made : PhraseRule κ) : Prop :=
  (place.1, made) ∈ sources ∧ Side.phrase made.symbols = place.2

omit [Cost κ] in
theorem offersAt_append {made : PhraseRule κ} :
    OffersAt (sources ++ [source]) place made ↔
      OffersAt sources place made ∨ made = source.2 ∧ place = target source := by
  unfold OffersAt target
  rw [List.mem_append, List.mem_singleton, or_and_right, Prod.ext_iff, Prod.ext_iff]
  refine or_congr_right ⟨?_, ?_⟩
  · rintro ⟨⟨symbol, rfl⟩, side⟩
    exact ⟨rfl, symbol, side.symm⟩
  · rintro ⟨rfl, symbol, side⟩
    exact ⟨⟨symbol, rfl⟩, side.symm⟩

omit [Cost κ] in
theorem IsOrderly.elided_of_ruleAt? (h : grammar.IsOrderly) (present : PhraseRule κ)
    (there : grammar.ruleAt? place = some (.phrase present))
    (origin : present.origin = .insertion) : present.elided.isSome = true :=
  h.names _ _ (List.mem_of_find?_eq_some there) origin

section Places

variable {before after : Symbol × Side → Option (Rule κ)} {made : Option (Rule κ)}

omit [Cost κ] in
/-- The right-hand sides that have a rule where there was none. -/
def addedAt (before after : Symbol × Side → Option (Rule κ)) : Set (Symbol × Side) :=
  {place | before place = none ∧ after place ≠ none}

omit [Cost κ] in
def replacedAt (before after : Symbol × Side → Option (Rule κ)) : Set (Symbol × Side) :=
  {place | before place ≠ none ∧ after place ≠ before place}

omit [Cost κ] in
theorem addedAt_update_of_none (none : before place = none) (some : made ≠ .none) :
    addedAt before (Function.update after place made) = insert place (addedAt before after) := by
  ext other
  rw [Set.mem_insert_iff]
  by_cases here : other = place
  · subst here
    simp only [addedAt, Set.mem_ofPred_eq, Function.update_self, none, some, true_and, true_or,
      ne_eq, not_false_eq_true]
  · simp only [addedAt, Set.mem_ofPred_eq, Function.update_of_ne here, here, false_or]

omit [Cost κ] in
theorem addedAt_update_of_some (some : before place ≠ none) :
    addedAt before (Function.update after place made) = addedAt before after := by
  ext other
  by_cases here : other = place
  · subst here
    simp only [addedAt, Set.mem_ofPred_eq, some, false_and]
  · simp only [addedAt, Set.mem_ofPred_eq, Function.update_of_ne here]

omit [Cost κ] in
theorem replacedAt_update_of_none (none : before place = none) :
    replacedAt before (Function.update after place made) = replacedAt before after := by
  ext other
  by_cases here : other = place
  · subst here
    simp only [replacedAt, Set.mem_ofPred_eq, none, ne_eq, not_true_eq_false, false_and]
  · simp only [replacedAt, Set.mem_ofPred_eq, Function.update_of_ne here]

omit [Cost κ] in
theorem replacedAt_update_of_some (some : before place ≠ none) (apart : made ≠ before place) :
    replacedAt before (Function.update after place made) =
      insert place (replacedAt before after) := by
  ext other
  rw [Set.mem_insert_iff]
  by_cases here : other = place
  · subst here
    simp only [replacedAt, Set.mem_ofPred_eq, Function.update_self, some, apart, ne_eq,
      not_false_eq_true, and_self, true_or]
  · simp only [replacedAt, Set.mem_ofPred_eq, Function.update_of_ne here, here, false_or]

end Places

theorem ruleAt?_offer_eq_update (known : source.1.index < state.1.size) :
    (offer state source).1.ruleAt? = Function.update state.1.ruleAt? (target source)
      (offerTo state.1.nameOf source.2 (state.1.ruleAt? (target source))).1 := by
  funext place
  by_cases here : place = target source
  · rw [here, Function.update_self, (ruleAt?_offer known).1]
  · rw [Function.update_of_ne here, ruleAt?_offer_of_ne here]

section Fold

variable [TransOrd κ]

theorem encard_offer {rules : Symbol × Side → Option (Rule κ)}
    (inside : source.1.index < state.1.size) (elided : source.2.elided.isSome = true)
    (still : state.1.ruleAt? (target source) = rules (target source))
    (added : (addedAt rules state.1.ruleAt?).encard = state.2.added)
    (replaced : (replacedAt rules state.1.ruleAt?).encard = state.2.replaced) :
    (addedAt rules (offer state source).1.ruleAt?).encard = (offer state source).2.added ∧
      (replacedAt rules (offer state source).1.ruleAt?).encard =
        (offer state source).2.replaced := by
  rw [ruleAt?_offer_eq_update inside, (ruleAt?_offer inside).2]
  cases old : rules (target source) with
  | none =>
    rw [still, old, offerTo, replacedAt_update_of_none old,
      addedAt_update_of_none old (Option.some_ne_none _), Set.encard_insert_of_notMem]
    · exact ⟨by rw [added]; rfl, replaced⟩
    · exact fun there => there.2 (still.trans old)
  | some present =>
    have taken : rules (target source) ≠ none := old ▸ Option.some_ne_none _
    rw [addedAt_update_of_some taken, still, old, offerTo]
    split
    case isTrue better =>
      have apart : some (Rule.phrase source.2) ≠ rules (target source) := by
        intro same
        obtain rfl := Option.some.inj (same.trans old)
        rw [PhraseRule.supersedes_eq_false.mpr fun _ => PhraseRule.compare_irrefl elided] at better
        exact nomatch better
      rw [replacedAt_update_of_some taken apart, Set.encard_insert_of_notMem]
      · exact ⟨added, by rw [replaced]; rfl⟩
      · exact fun there => there.2 still
    case isFalse =>
      rw [← old, ← still, Function.update_eq_self]
      exact ⟨added, replaced⟩

variable (orderly : grammar.IsOrderly)

include orderly

/-- Offers lead each right-hand side to what those for it lead to, whatever order they come in. -/
theorem leadsTo_foldl (known : ∀ source ∈ sources, source.1.index < grammar.size)
    (rivals : ∀ place, AreRivals grammar.nameOf (OffersAt sources place)) (place : Symbol × Side) :
    LeadsTo grammar.nameOf (OffersAt sources place) (grammar.ruleAt? place)
      ((sources.foldl offer (grammar, .none)).1.ruleAt? place) := by
  -- The induction is on the last offer, which finds what all others have led to.
  induction sources using List.reverseRecOn with
  | nil => exact .untouched fun made offered => absurd offered.1 List.not_mem_nil
  | append_singleton sources source ih =>
    obtain ⟨first, last⟩ := List.forall_mem_append.mp known
    have earlier := ih first fun place =>
      (rivals place).mono fun made offered => offersAt_append.mpr (.inl offered)
    rw [List.foldl_append, List.foldl_cons, List.foldl_nil]
    generalize reached : sources.foldl offer (grammar, .none) = state at earlier ⊢
    have bare : state.1.bare = grammar.bare := reached ▸ bare_foldl sources (grammar, .none)
    by_cases here : place = target source
    · have competing : OffersAt (sources ++ [source]) place =
          fun made => OffersAt sources place made ∨ made = source.2 := by
        funext made
        rw [offersAt_append, and_iff_left here]
      have all := rivals place
      rw [competing] at all ⊢
      have inside : source.1.index < state.1.size := by
        rw [size_eq_of_bare bare]
        exact last source (List.mem_singleton_self source)
      have nameOf : state.1.nameOf = grammar.nameOf := funext (nameOf_eq_of_bare bare)
      subst here
      rw [(ruleAt?_offer inside).1, nameOf]
      exact earlier.offer all orderly.elided_of_ruleAt?
    · have competing : OffersAt (sources ++ [source]) place = OffersAt sources place := by
        funext made
        rw [offersAt_append, or_iff_left fun offered => here offered.2]
      rw [competing, ruleAt?_offer_of_ne here]
      exact earlier

/-- Where the better ones of several offers come first, each right-hand side gets at most one new
rule, and the changes that are recorded are those that last. -/
theorem encard_foldl (known : ∀ source ∈ sources, source.1.index < grammar.size)
    (rivals : ∀ place, AreRivals grammar.nameOf (OffersAt sources place))
    (sorted : sources.Pairwise fun a b => target a = target b →
      b.2.compare grammar.nameOf a.2 ≠ .lt) :
    (addedAt grammar.ruleAt? (sources.foldl offer (grammar, .none)).1.ruleAt?).encard =
        (sources.foldl offer (grammar, .none)).2.added ∧
      (replacedAt grammar.ruleAt? (sources.foldl offer (grammar, .none)).1.ruleAt?).encard =
        (sources.foldl offer (grammar, .none)).2.replaced := by
  induction sources using List.reverseRecOn with
  | nil =>
    have none : addedAt grammar.ruleAt? grammar.ruleAt? = ∅ := by
      ext place
      exact ⟨fun h => h.2 h.1, False.elim⟩
    have same : replacedAt grammar.ruleAt? grammar.ruleAt? = ∅ := by
      ext place
      exact ⟨fun h => h.2 rfl, False.elim⟩
    exact ⟨none ▸ Set.encard_empty, same ▸ Set.encard_empty⟩
  | append_singleton sources source ih =>
    obtain ⟨first, last⟩ := List.forall_mem_append.mp known
    obtain ⟨sooner, -, later⟩ := List.pairwise_append.mp sorted
    have fewer : ∀ place, AreRivals grammar.nameOf (OffersAt sources place) := fun place =>
      (rivals place).mono fun made offered => offersAt_append.mpr (.inl offered)
    have leads := leadsTo_foldl orderly first fewer (target source)
    obtain ⟨added, replaced⟩ := ih first fewer sooner
    rw [List.foldl_append, List.foldl_cons, List.foldl_nil]
    generalize reached : sources.foldl offer (grammar, .none) = state at leads added replaced ⊢
    have bare : state.1.bare = grammar.bare := reached ▸ bare_foldl sources (grammar, .none)
    have nameOf : state.1.nameOf = grammar.nameOf := funext (nameOf_eq_of_bare bare)
    have inside : source.1.index < state.1.size := by
      rw [size_eq_of_bare bare]
      exact last source (List.mem_singleton_self source)
    by_cases some : ∃ made, OffersAt sources (target source) made
    · have all : AreRivals grammar.nameOf fun made =>
          OffersAt sources (target source) made ∨ made = source.2 :=
        (rivals (target source)).mono fun made offered =>
          offersAt_append.mpr (offered.imp_right fun same => ⟨same, rfl⟩)
      have declined := leads.declines all orderly.elided_of_ruleAt? some
        fun made offered => later _ offered.1 source (List.mem_singleton_self source)
          (Prod.ext rfl offered.2)
      rw [ruleAt?_offer_eq_update inside, (ruleAt?_offer inside).2, nameOf, declined,
        Function.update_eq_self]
      exact ⟨added, replaced⟩
    · refine encard_offer inside ?_ (leads.eq_of_none some) added replaced
      exact (rivals (target source)).elided (offersAt_append.mpr (.inr ⟨rfl, rfl⟩))

end Fold

section Sorting

variable [TransOrd κ]

instance (nameOf : Symbol → String) : TransCmp fun a b : Symbol × PhraseRule κ =>
    a.2.compareFully nameOf b.2 :=
  transCmp_of_key Prod.snd fun _ _ => rfl

instance : TransOrd Symbol :=
  inferInstanceAs (TransCmp (compareOn Symbol.index))

/-- The order of offers, with the fillers of elided children compared as they are. -/
def compareOffersFully (nameOf : Symbol → String) :
    Symbol × PhraseRule κ → Symbol × PhraseRule κ → Ordering :=
  compareLex (compareOn Prod.fst) <| compareLex (compareOn fun source => source.2.symbols)
    fun a b => a.2.compareFully nameOf b.2

instance (nameOf : Symbol → String) : TransCmp (compareOffersFully (κ := κ) nameOf) := by
  unfold compareOffersFully
  infer_instance

theorem pairwise_mergeSort_offers (nameOf : Symbol → String)
    {offers : List (Symbol × PhraseRule κ)}
    (elided : ∀ source ∈ offers, source.2.elided.isSome = true) :
    (offers.mergeSort fun a b => (compareOffers nameOf a b).isLE).Pairwise fun a b =>
      target a = target b → b.2.compare nameOf a.2 ≠ .lt := by
  have agree : ∀ a ∈ offers, ∀ b ∈ offers,
      compareOffers nameOf a b = compareOffersFully nameOf a b := by
    intro a ha b hb
    rw [compareOffers, PhraseRule.compare_eq_compareFully nameOf (elided a ha) (elided b hb)]
    rfl
  let fully (a b : Symbol × PhraseRule κ) : Bool := (compareOffersFully nameOf a b).isLE
  have same : (offers.mergeSort fun a b => (compareOffers nameOf a b).isLE) =
      offers.mergeSort fully := by
    have mapped := List.map_mergeSort (r := fun a b => (compareOffers nameOf a b).isLE)
      (s := fully) (f := id) fun a ha b hb => congrArg Ordering.isLE (agree a ha b hb)
    rwa [List.map_id, List.map_id] at mapped
  rw [same]
  refine (List.pairwise_mergeSort ?_ ?_ offers).imp_of_mem ?_
  · exact fun a b c => TransCmp.isLE_trans
  · intro a b
    have swap : compareOffersFully nameOf b a = (compareOffersFully nameOf a b).swap :=
      OrientedCmp.eq_swap
    change ((compareOffersFully nameOf a b).isLE || (compareOffersFully nameOf b a).isLE) = true
    rw [swap]
    cases compareOffersFully nameOf a b <;> rfl
  · intro a b ha hb sorted target
    obtain ⟨symbol, side⟩ := Prod.mk.inj target
    have order : compareOffersFully nameOf a b = a.2.compareFully nameOf b.2 := by
      simp only [compareOffersFully, compareLex, compareOn, symbol, Side.phrase.inj side,
        ReflCmp.compare_self, Ordering.eq_then]
    have sorted : (compareOffersFully nameOf a b).isLE = true := sorted
    rw [PhraseRule.compare_eq_compareFully nameOf (elided b (List.mem_mergeSort.mp hb))
      (elided a (List.mem_mergeSort.mp ha))]
    intro less
    rw [order, OrientedCmp.gt_of_lt less] at sorted
    exact nomatch sorted

end Sorting

/-- The insertion rules that the pairs of a symbol offer for one right-hand side. -/
def Competes (grammar : Grammar κ) (best : Fillers κ) (place : Symbol × Side)
    (made : PhraseRule κ) : Prop :=
  ∃ source, .phrase source ∈ grammar.rulesOf place.1 ∧ source.Offers best made ∧
    Side.phrase made.symbols = place.2

theorem offersAt_insertionOffers [OrientedOrd κ] :
    OffersAt (grammar.insertionOffers best) place = grammar.Competes best place := by
  funext made
  simp only [OffersAt, Competes, mem_insertionOffers, PhraseRule.insertion?_iff_offers]
  exact propext ⟨fun ⟨⟨source, mem, offered⟩, side⟩ => ⟨source, mem, offered, side⟩,
    fun ⟨source, mem, offered, side⟩ => ⟨⟨source, mem, offered⟩, side⟩⟩

variable [LawfulEqOrd κ]

theorem IsSound.rivals (h : grammar.IsSound) (best : Fillers κ) (place : Symbol × Side) :
    AreRivals grammar.nameOf (OffersAt (grammar.insertionOffers best) place) := by
  have offer : ∀ {made}, OffersAt (grammar.insertionOffers best) place made →
      made.IsOffer grammar.size := by
    rintro made ⟨offered, -⟩
    obtain ⟨rule, present, inserted⟩ := mem_insertionOffers.mp offered
    obtain ⟨-, abridged, pair, place, filler, slots, -, same⟩ :=
      PhraseRule.insertion?_eq_some.mp inserted
    have same : rule.eliding pair place filler = made := same
    exact same ▸ PhraseRule.IsSound.isOffer (h.rule present) slots abridged place filler
  refine ⟨fun offered => (offer offered).origin, fun offered => (offer offered).elided, ?_⟩
  intro a b ha hb tie
  refine (offer ha).eq_of_compare (offer hb).toIsEliding
    (Side.phrase.inj (ha.2.trans hb.2.symm)) (fun x hx y hy same => ?_) tie
  exact h.nameOf_inj ((offer ha).child x hx) ((offer hb).child y hy) same

theorem leadsTo_of_perm [TransOrd κ] (orderly : grammar.IsOrderly)
    (same : sources.Perm (grammar.insertionOffers best)) (place : Symbol × Side) :
    LeadsTo grammar.nameOf (grammar.Competes best place) (grammar.ruleAt? place)
      ((sources.foldl offer (grammar, .none)).1.ruleAt? place) := by
  have offers : OffersAt sources = OffersAt (grammar.insertionOffers best) := by
    funext place made
    rw [OffersAt, OffersAt, same.mem_iff]
  rw [← offersAt_insertionOffers, ← offers]
  refine leadsTo_foldl orderly (fun source mem => ?_) (fun place => ?_) place
  · exact (orderly.sound.offerable (same.mem_iff.mp mem)).known
  · exact offers ▸ orderly.sound.rivals best place

/-- A round leads every right-hand side of every symbol to the best of what pairs offer for it, or
leaves it as it is. It counts the right-hand sides that have got a rule or another one. No two pairs
offer rules that tie, and the order of the offers plays no part in which rules there are. -/
theorem run_insertWith_foremost [TransOrd κ] {operations : List (Operation κ)}
    (plain : ∀ operation ∈ operations, operation.IsPlain) (best : Fillers κ) :
    (∀ place, LeadsTo (run operations).nameOf ((run operations).Competes best place)
        ((run operations).ruleAt? place) (((run operations).insertWith best).1.ruleAt? place)) ∧
      ((addedAt (run operations).ruleAt?
          ((run operations).insertWith best).1.ruleAt?).encard =
            ((run operations).insertWith best).2.added ∧
        (replacedAt (run operations).ruleAt?
          ((run operations).insertWith best).1.ruleAt?).encard =
            ((run operations).insertWith best).2.replaced) ∧
      (∀ symbol a b made other, .phrase a ∈ (run operations).rulesOf symbol →
        .phrase b ∈ (run operations).rulesOf symbol → a.Offers best made → b.Offers best other →
        made.symbols = other.symbols → made.compare (run operations).nameOf other = .eq → a = b) ∧
      ∀ sources : List (Symbol × PhraseRule κ),
        sources.Perm ((run operations).insertionOffers best) → ∀ place,
          (sources.foldl offer (run operations, .none)).1.ruleAt? place =
            ((run operations).insertWith best).1.ruleAt? place := by
  have orderly : (run operations).IsOrderly := ⟨.run operations, run_namesElided plain⟩
  have leads := leadsTo_of_perm orderly (List.Perm.refl ((run operations).insertionOffers best))
  have rivals := orderly.sound.rivals best
  have competing : ∀ place,
      AreRivals (run operations).nameOf ((run operations).Competes best place) := by
    intro place
    rw [← offersAt_insertionOffers]
    exact rivals place
  refine ⟨leads, ?_, ?_, fun sources same place => ?_⟩
  · have offerable : ∀ source ∈ (run operations).insertionOffers best,
        (run operations).Offerable source := fun _ => orderly.sound.offerable
    refine encard_foldl orderly (fun source mem => (offerable source mem).known) rivals
      (pairwise_mergeSort_offers _ fun source mem => ?_)
    exact (offerable source (List.mem_mergeSort.mpr mem)).elided
  · intro symbol a b made other ha hb offered offered' side tie
    have here : (run operations).Competes best (symbol, .phrase made.symbols) made :=
      ⟨a, ha, offered, rfl⟩
    have there : (run operations).Competes best (symbol, .phrase made.symbols) other :=
      ⟨b, hb, offered', congrArg Side.phrase side.symm⟩
    obtain rfl := (competing _).eq_of_tie here there tie
    exact Rule.phrase.inj ((orderly.sound.apart symbol).eq_of_side ha hb
      (congrArg Side.phrase (offered.symbols_eq offered')))
  · exact (leadsTo_of_perm orderly same place).unique (competing place) (leads place)

/-- A noun stands after an article or an adjective, either of which may be left out. -/
def nounPhrase : List (Operation ℚ≥0) :=
  [.newSymbol ["noun"], .newSymbol ["article"], .newSymbol ["adjective"],
    .addRule ⟨2⟩ (.word (.ofLiteral "noun")),
    .addRule ⟨3⟩ (.word { WordRule.ofLiteral "article" with insertionCost := some 1 }),
    .addRule ⟨4⟩ (.word { WordRule.ofLiteral "adjective" with insertionCost := some 0 }),
    .addRule .start (.phrase (.ofSymbols [⟨3⟩, ⟨2⟩])),
    .addRule .start (.phrase (.ofSymbols [⟨4⟩, ⟨2⟩]))]

def nounAlone : PhraseRule ℚ≥0 :=
  { PhraseRule.ofSymbols [⟨2⟩] with
    origin := .insertion
    elided := some ⟨0, ⟨4⟩, ⟨0, [.fixed "adjective"], []⟩⟩ }

/-- Both pairs offer a rule for the noun alone. The one comes that leaves out the adjective. -/
theorem nounPhrase_insertWith_foremost :
    ((run nounPhrase).insertWith (run nounPhrase).fillers).1.ruleAt? (.start, .phrase [⟨2⟩]) =
      some (.phrase nounAlone) := by
  have plain : ∀ operation ∈ nounPhrase, operation.IsPlain := by
    simp only [nounPhrase, List.forall_mem_cons]
    exact ⟨trivial, trivial, trivial, Rule.isPlain_ofLiteral, Rule.isPlain_ofLiteral,
      Rule.isPlain_ofLiteral, Rule.isPlain_ofSlots, Rule.isPlain_ofSlots,
      List.forall_mem_nil _⟩
  have leads := (run_insertWith_foremost plain (run nounPhrase).fillers).1 (.start, .phrase [⟨2⟩])
  have pairs : (run nounPhrase).rulesOf .start =
      [.phrase (.ofSymbols [⟨3⟩, ⟨2⟩]), .phrase (.ofSymbols [⟨4⟩, ⟨2⟩])] := by decide +kernel
  have before : (run nounPhrase).ruleAt? (.start, .phrase [⟨2⟩]) = none := by decide +kernel
  have article : (PhraseRule.ofSymbols [⟨3⟩, ⟨2⟩]).insertion? (run nounPhrase).fillers =
      some { PhraseRule.ofSymbols [⟨2⟩] with
        cost := 1
        origin := .insertion
        elided := some ⟨0, ⟨3⟩, ⟨1, [.fixed "article"], []⟩⟩ } := by decide +kernel
  have adjective : (PhraseRule.ofSymbols [⟨4⟩, ⟨2⟩]).insertion? (run nounPhrase).fillers =
      some nounAlone := by decide +kernel
  have second : Rule.phrase (.ofSymbols [⟨4⟩, ⟨2⟩]) ∈ (run nounPhrase).rulesOf .start := by
    rw [pairs]
    exact List.mem_cons_of_mem _ (List.mem_singleton_self _)
  have competes :
      (run nounPhrase).Competes (run nounPhrase).fillers (.start, .phrase [⟨2⟩]) nounAlone :=
    ⟨_, second, PhraseRule.insertion?_iff_offers.mp adjective, rfl⟩
  rw [before] at leads
  generalize ((run nounPhrase).insertWith (run nounPhrase).fillers).1.ruleAt?
    (.start, .phrase [⟨2⟩]) = after at leads ⊢
  cases leads with
  | untouched none => exact absurd competes (none _)
  | added least =>
    obtain ⟨pair, mem, offers, -⟩ := least.offered
    have offered := PhraseRule.insertion?_iff_offers.mpr offers
    have mem : .phrase pair ∈ (run nounPhrase).rulesOf .start := mem
    rw [pairs, List.mem_cons, List.mem_singleton, Rule.phrase.injEq, Rule.phrase.injEq] at mem
    rcases mem with rfl | rfl
    · -- The one that leaves out the article is dearer than the other one.
      obtain rfl := Option.some.inj (article.symm.trans offered)
      exact absurd (least.less _ competes (by decide +kernel)) (by decide +kernel)
    · obtain rfl := Option.some.inj (adjective.symm.trans offered)
      rfl

end Grammar

end PhraseGrammar
