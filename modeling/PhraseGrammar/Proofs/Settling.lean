import Mathlib.Data.Finset.Card
import Mathlib.Logic.Relation
import PhraseGrammar.Proofs.BestOffers
import PhraseGrammar.Proofs.Spreading

/-! The rounds of insertion settle where no symbol feeds itself: the fillers of a symbol change no
more once those of the symbols that feed it do not, and then neither do its rules. Where a symbol
feeds itself at no cost, the rounds may end while rules are still changing. -/

namespace PhraseGrammar

open Std

variable {κ : Type}

def Rule.NamesElided : Rule κ → Prop
  | .word _ => True
  | .phrase rule => rule.origin = .insertion → rule.elided.isSome = true

theorem Rule.NamesElided.of_origin {rule : PhraseRule κ} (h : rule.origin ≠ .insertion) :
    (Rule.phrase rule).NamesElided :=
  fun insertion => absurd insertion h

theorem Rule.IsAuthored.namesElided {rule : Rule κ} (h : rule.IsAuthored) : rule.NamesElided := by
  cases rule with
  | word rule => exact trivial
  | phrase rule => exact .of_origin (h.1 ▸ nofun)

variable [Cost κ]

namespace PhraseRule

variable {rule made : PhraseRule κ} {pair : Slot × Slot} {place : Place} {filler : Filler κ}

theorem cheaperPlace_eq_some {first second : Option (Filler κ)}
    (h : cheaperPlace first second = some (place, filler)) :
    place.of (first, second) = some filler := by
  unfold cheaperPlace at h
  split at h
  case h_1 =>
    split at h
    · obtain ⟨rfl, rfl⟩ := Prod.mk.inj (Option.some.inj h)
      rfl
    · obtain ⟨rfl, rfl⟩ := Prod.mk.inj (Option.some.inj h)
      rfl
  case h_2 =>
    obtain ⟨rfl, rfl⟩ := Prod.mk.inj (Option.some.inj h)
    rfl
  case h_3 =>
    obtain ⟨rfl, rfl⟩ := Prod.mk.inj (Option.some.inj h)
    rfl
  case h_4 => exact nomatch h

omit [Cost κ] in
theorem mem_zipIdx_of_pair (slots : rule.slots = [pair.1, pair.2]) {slot : Slot} {position : Nat} :
    (slot, position) ∈ rule.slots.zipIdx ↔
      ∃ place : Place, slot = place.of pair ∧ position = place.position := by
  simp only [slots, List.zipIdx_cons, List.zipIdx_nil, List.mem_cons, List.not_mem_nil, or_false,
    Prod.mk.injEq]
  constructor
  · rintro (⟨rfl, rfl⟩ | ⟨rfl, rfl⟩)
    · exact ⟨.first, rfl, rfl⟩
    · exact ⟨.second, rfl, rfl⟩
  · rintro ⟨first | second, rfl, rfl⟩
    · exact .inl ⟨rfl, rfl⟩
    · exact .inr ⟨rfl, rfl⟩

theorem mem_zipIdx_eliding {slot : Slot} {position : Nat} :
    (slot, position) ∈ (rule.eliding pair place filler).slots.zipIdx ↔
      slot = { place.other.of pair with optional := false } ∧ position = 0 := by
  simp only [eliding, List.zipIdx_cons, List.zipIdx_nil, List.mem_singleton, Prod.mk.injEq]

omit [Cost κ] in
theorem contains_remapPositions {map : Nat → Option Nat} {positions : List Nat} {new old : Nat}
    (only : ∀ position ∈ positions, map position = some new ↔ position = old) :
    (remapPositions map positions).contains new = positions.contains old := by
  rw [Bool.eq_iff_iff, List.contains_iff_mem, List.contains_iff_mem, mem_remapPositions]
  constructor
  · rintro ⟨position, mem, same⟩
    exact (only position mem).mp same ▸ mem
  · exact fun mem => ⟨old, mem, (only old mem).mpr rfl⟩

theorem allowsInsertion_eliding :
    (rule.eliding pair place filler).allowsInsertion
        { place.other.of pair with optional := false } 0 =
      rule.allowsInsertion (place.other.of pair) place.other.position := by
  have positions : (rule.eliding pair place filler).requiredPositions.contains 0 =
      rule.requiredPositions.contains place.other.position := by
    refine contains_remapPositions fun position _ => ?_
    rw [Option.ite_none_right_eq_some, and_iff_left rfl]
  rw [allowsInsertion, allowsInsertion, positions]
  rfl

variable {best other : Fillers κ} {filled : Symbol → Prop} {feeds : Symbol → Symbol → Prop}
  {symbol : Symbol}

theorem fills_of_cheaperPlace
    (chosen : cheaperPlace (rule.slotFiller? best pair.1 0) (rule.slotFiller? best pair.2 1) =
      some (place, filler)) :
    rule.allowsInsertion (place.of pair) place.position = true ∧
      ((place.of pair).optional = false → (best.of? (place.of pair).symbol).isSome = true) := by
  have gone := cheaperPlace_eq_some chosen
  rw [← slotFiller?_isSome]
  cases place with
  | first => exact Option.isSome_iff_exists.mpr ⟨_, gone⟩
  | second => exact Option.isSome_iff_exists.mpr ⟨_, gone⟩

theorem SpreadsWithin.insertion (h : rule.SpreadsWithin filled feeds symbol)
    (within : best.Within filled) (inserted : rule.insertion? best = some made) :
    made.SpreadsWithin filled feeds symbol := by
  obtain ⟨-, abridged, pair, place, filler, slots, chosen, rfl⟩ := insertion?_eq_some.mp inserted
  have left := (fills_of_cheaperPlace chosen).imp_right fun known needed => within _ (known needed)
  refine ⟨?_, fun slot position mem allowed child parent => ?_⟩
  · -- Where the child that stays may be left out too, so may both children of the pair.
    rintro ⟨-, declared | children⟩
    · exact nomatch declared
    · obtain ⟨allowed, known⟩ := children _ _ (mem_zipIdx_eliding.mpr ⟨rfl, rfl⟩)
      rw [allowsInsertion_eliding] at allowed
      refine h.fills ⟨abridged, .inr fun slot position mem => ?_⟩
      obtain ⟨at', rfl, rfl⟩ := (mem_zipIdx_of_pair slots).mp mem
      by_cases here : at' = place
      · exact here ▸ left
      · have other : at' = place.other := by
          cases at' <;> cases place <;> first | rfl | exact absurd rfl here
        exact other ▸ ⟨allowed, fun _ => known rfl⟩
  · obtain ⟨rfl, rfl⟩ := mem_zipIdx_eliding.mp mem
    rw [allowsInsertion_eliding] at allowed
    have there := (mem_zipIdx_of_pair slots).mpr ⟨place.other, rfl, rfl⟩
    exact h.feeds (place.other.of pair) place.other.position there allowed child parent

theorem insertion?_congr
    (same : ∀ slot position, (slot, position) ∈ rule.slots.zipIdx →
      rule.allowsInsertion slot position = true → best.of? slot.symbol = other.of? slot.symbol) :
    rule.insertion? best = rule.insertion? other := by
  unfold insertion?
  cases children : rule.pair? with
  | none => rfl
  | some pair =>
    have slots := pair?_eq_some.mp children
    have alike : ∀ place : Place, rule.slotFiller? best (place.of pair) place.position =
        rule.slotFiller? other (place.of pair) place.position := fun place =>
      slotFiller?_congr fun allowed _ =>
        same _ _ ((mem_zipIdx_of_pair slots).mpr ⟨place, rfl, rfl⟩) allowed
    have first := alike .first
    have second := alike .second
    simp only [Place.of] at first second
    simp only [Option.bind_eq_bind, Option.bind_some, first, second]

end PhraseRule

theorem PhraseRule.supersedes_eq_false {nameOf : Symbol → String} {rule present : PhraseRule κ} :
    rule.supersedes nameOf (.phrase present) = false ↔
      (present.origin = .insertion → rule.compare nameOf present ≠ .lt) := by
  simp only [supersedes, Bool.and_eq_false_iff, decide_eq_false_iff_not, beq_eq_false_iff_ne,
    Decidable.imp_iff_not_or]

namespace Grammar

variable {grammar grown : Grammar κ} {symbol : Symbol} {best other : Fillers κ}
  {source : Symbol × PhraseRule κ}

theorem of_mem_insertWith {rule : Rule κ}
    (h : rule ∈ (grammar.insertWith best).1.rulesOf symbol) :
    rule ∈ grammar.rulesOf symbol ∨
      ∃ made, rule = .phrase made ∧ (symbol, made) ∈ grammar.insertionOffers best := by
  have all : ∀ symbol, ∀ rule ∈ (grammar.insertWith best).1.rulesOf symbol,
      rule ∈ grammar.rulesOf symbol ∨
        ∃ made, rule = .phrase made ∧ (symbol, made) ∈ grammar.insertionOffers best := by
    refine List.foldlRecOn (motive := fun state : Grammar κ × Changes =>
      ∀ symbol, ∀ rule ∈ state.1.rulesOf symbol, rule ∈ grammar.rulesOf symbol ∨
        ∃ made, rule = .phrase made ∧ (symbol, made) ∈ grammar.insertionOffers best)
      _ offer (fun _ _ mem => .inl mem) fun state held source offered symbol rule mem => ?_
    rw [offer_fst] at mem
    rcases mem_rulesOf_setRules.mp mem with ⟨rfl, -, mem⟩ | ⟨-, mem⟩
    · rcases offerRule_cases state.1.nameOf source.2 (state.1.rulesOf source.1) with
        ⟨-, done⟩ | ⟨before, present, after, rules, -, -, -, done⟩ | ⟨-, done⟩
      · rw [done] at mem
        rcases List.mem_append.mp mem with mem | mem
        · exact held _ rule mem
        · exact .inr ⟨source.2, List.mem_singleton.mp mem, offered⟩
      · rw [done] at mem
        have old : ∀ rule ∈ before ++ .phrase present :: after, _ := rules ▸ held source.1
        rcases List.mem_append.mp mem with mem | mem
        · exact old rule (List.mem_append_left _ mem)
        · rcases List.mem_cons.mp mem with rfl | mem
          · exact .inr ⟨source.2, rfl, offered⟩
          · exact old rule (List.mem_append_right _ (List.mem_cons_of_mem _ mem))
      · rw [done] at mem
        exact held _ rule mem
    · exact held symbol rule mem
  exact all symbol rule h

theorem mem_insertWith {rule : Rule κ} (mem : rule ∈ grammar.rulesOf symbol)
    (origin : rule.origin ≠ .insertion) : rule ∈ (grammar.insertWith best).1.rulesOf symbol := by
  refine List.foldlRecOn (motive := fun state : Grammar κ × Changes =>
    rule ∈ state.1.rulesOf symbol) _ offer mem fun state held source _ => ?_
  rw [offer_fst]
  by_cases here : symbol = source.1
  · subst here
    refine mem_rulesOf_setRules.mpr (.inl ⟨rfl, lt_size_of_mem_rulesOf held, ?_⟩)
    rcases offerRule_cases state.1.nameOf source.2 (state.1.rulesOf source.1) with
      ⟨-, done⟩ | ⟨before, present, after, rules, -, inserted, -, done⟩ | ⟨-, done⟩
    · rw [done]
      exact List.mem_append_left _ held
    · rw [done]
      rw [rules] at held
      rcases List.mem_append.mp held with held | held
      · exact List.mem_append_left _ held
      · rcases List.mem_cons.mp held with rfl | held
        · exact absurd inserted origin
        · exact List.mem_append_right _ (List.mem_cons_of_mem _ held)
    · rw [done]
      exact held
  · exact mem_rulesOf_setRules.mpr (.inr ⟨here, held⟩)

theorem authored_mem_insertWith {rule : PhraseRule κ} (origin : rule.origin = .authored) :
    .phrase rule ∈ (grammar.insertWith best).1.rulesOf symbol ↔
      .phrase rule ∈ grammar.rulesOf symbol := by
  refine ⟨fun mem => ?_, fun mem => mem_insertWith mem ?_⟩
  · rcases of_mem_insertWith mem with old | ⟨made, same, offered⟩
    · exact old
    · obtain rfl := Rule.phrase.inj same
      obtain ⟨pair, -, inserted⟩ := mem_insertionOffers.mp offered
      obtain ⟨-, -, _, _, _, -, -, eliding⟩ := PhraseRule.insertion?_eq_some.mp inserted
      have derived : (symbol, rule).2.origin = .insertion := eliding ▸ rfl
      exact nomatch origin.symm.trans derived
  · change rule.origin ≠ .insertion
    rw [origin]
    exact nofun

theorem run_namesElided {operations : List (Operation κ)}
    (plain : ∀ operation ∈ operations, operation.IsPlain) :
    (run operations).AllRules Rule.NamesElided :=
  run_induction .new (.step fun _ h => h.namesElided)
    (fun _ => derive_induction (fun h => h.collapseRound fun _ _ => .of_origin nofun)
      (fun h => h.insertionRound fun _ _ _ _ _ _ => rfl)
      (fun h => h.transpose fun _ _ _ _ => .of_origin nofun))
    fun operation mem => (plain operation mem).mono fun _ plain => plain.isAuthored.namesElided

/-- Where no two rules of a symbol have one right-hand side, an offer is declined for the rule that
has its own. -/
theorem declines_iff (apart : Rule.Apart (grammar.rulesOf source.1)) :
    grammar.Declines source ↔ ∃ present ∈ grammar.rulesOf source.1,
      present.side = .phrase source.2.symbols ∧
        source.2.supersedes grammar.nameOf present = false := by
  unfold Declines
  rcases offerRule_cases grammar.nameOf source.2 (grammar.rulesOf source.1) with
    ⟨fresh, done⟩ | ⟨before, present, after, rules, symbols, origin, less, done⟩ |
      ⟨kept, done⟩
  · rw [done]
    exact ⟨fun same => (nomatch (Prod.mk.inj same).2),
      fun ⟨present, mem, side, _⟩ => absurd side (fresh present mem)⟩
  · rw [done]
    refine ⟨fun same => (nomatch (Prod.mk.inj same).2), fun ⟨other, mem, side, worse⟩ => ?_⟩
    have there : .phrase present ∈ grammar.rulesOf source.1 :=
      rules ▸ List.mem_append_right _ List.mem_cons_self
    obtain rfl := apart.eq_of_side mem there (side.trans (congrArg Side.phrase symbols.symm))
    exact absurd less (PhraseRule.supersedes_eq_false.mp worse origin)
  · rw [done]
    exact ⟨fun _ => kept, fun _ => rfl⟩

structure Offerable (grammar : Grammar κ) (source : Symbol × PhraseRule κ) : Prop where
  known : source.1.index < grammar.size
  other : source.1 ≠ .empty
  sound : source.2.IsSound grammar.size
  elided : source.2.elided.isSome = true

omit [Cost κ] in
theorem Offerable.congr (h : grammar.Offerable source) (same : grown.size = grammar.size) :
    grown.Offerable source :=
  ⟨same ▸ h.known, h.other, same ▸ h.sound, h.elided⟩

theorem IsSound.offerable (h : grammar.IsSound) (mem : source ∈ grammar.insertionOffers best) :
    grammar.Offerable source := by
  obtain ⟨rule, present, made⟩ := mem_insertionOffers.mp mem
  obtain ⟨-, -, pair, place, filler, slots, -, same⟩ := PhraseRule.insertion?_eq_some.mp made
  exact ⟨lt_size_of_mem_rulesOf present, h.ne_empty present,
    same ▸ PhraseRule.IsSound.eliding (h.rule present) slots place filler, same ▸ rfl⟩

/-- A sound grammar in which insertion rules say what they leave out. -/
structure IsOrderly (grammar : Grammar κ) : Prop where
  sound : grammar.IsSound
  names : grammar.AllRules Rule.NamesElided

theorem IsOrderly.offer {state : Grammar κ × Changes} (h : state.1.IsOrderly)
    (given : state.1.Offerable source) : (Grammar.offer state source).1.IsOrderly :=
  ⟨h.sound.offer given.other given.sound state.2, h.names.offer fun _ => given.elided⟩

theorem IsOrderly.insertionRound (h : grammar.IsOrderly) :
    grammar.insertionRound.1.IsOrderly :=
  ⟨h.sound.insertionRound, h.names.insertionRound fun _ _ _ _ _ _ => rfl⟩

section Declined

variable [TransOrd κ] {state : Grammar κ × Changes} {later : Symbol × PhraseRule κ}

theorem declines_offer (h : state.1.IsOrderly) (given : state.1.Offerable source) :
    (offer state source).1.Declines source := by
  have nameOf : (offer state source).1.nameOf = state.1.nameOf :=
    funext (nameOf_eq_of_bare (bare_setRules ..))
  have last : source.2.supersedes state.1.nameOf (.phrase source.2) = false :=
    PhraseRule.supersedes_eq_false.mpr fun _ => PhraseRule.compare_irrefl given.elided
  rw [declines_iff ((h.offer given).sound.apart _), nameOf, offer_fst,
    rulesOf_setRules_self given.known]
  rcases offerRule_cases state.1.nameOf source.2 (state.1.rulesOf source.1) with
    ⟨-, done⟩ | ⟨before, present, after, -, -, -, -, done⟩ | ⟨kept, done⟩
  · rw [done]
    exact ⟨_, List.mem_append_right _ (List.mem_singleton_self _), rfl, last⟩
  · rw [done]
    exact ⟨_, List.mem_append_right _ List.mem_cons_self, rfl, last⟩
  · rw [done]
    exact kept

/-- What is declined is declined also after another offer: that may only bring a better rule. -/
theorem Declines.offer (held : state.1.Declines source) (h : state.1.IsOrderly)
    (elided : source.2.elided.isSome = true) (given : state.1.Offerable later) :
    (Grammar.offer state later).1.Declines source := by
  have nameOf : (Grammar.offer state later).1.nameOf = state.1.nameOf :=
    funext (nameOf_eq_of_bare (bare_setRules ..))
  obtain ⟨present, mem, side, worse⟩ := (declines_iff (h.sound.apart _)).mp held
  rw [declines_iff ((h.offer given).sound.apart _), nameOf, offer_fst]
  by_cases here : source.1 = later.1
  · rw [here] at mem ⊢
    rw [rulesOf_setRules_self given.known]
    rcases offerRule_cases state.1.nameOf later.2 (state.1.rulesOf later.1) with
      ⟨-, done⟩ | ⟨before, old, after, rules, symbols, origin, less, done⟩ | ⟨-, done⟩
    · rw [done]
      exact ⟨present, List.mem_append_left _ mem, side, worse⟩
    · rw [done]
      rw [rules, List.mem_append, List.mem_cons] at mem
      rcases mem with mem | rfl | mem
      · exact ⟨present, List.mem_append_left _ mem, side, worse⟩
      · have there : .phrase old ∈ state.1.rulesOf later.1 :=
          rules ▸ List.mem_append_right _ List.mem_cons_self
        have named : old.elided.isSome = true := h.names _ _ there origin
        have same : later.2.symbols = source.2.symbols := symbols.symm.trans (Side.phrase.inj side)
        refine ⟨.phrase later.2, List.mem_append_right _ List.mem_cons_self,
          congrArg Side.phrase same, PhraseRule.supersedes_eq_false.mpr fun _ better => ?_⟩
        exact PhraseRule.supersedes_eq_false.mp worse origin
          (PhraseRule.compare_lt_trans elided given.elided named better
            (PhraseRule.compare_asymm given.elided named less))
      · exact ⟨present, List.mem_append_right _ (List.mem_cons_of_mem _ mem), side, worse⟩
    · rw [done]
      exact ⟨present, mem, side, worse⟩
  · rw [rulesOf_setRules_of_ne here]
    exact ⟨present, mem, side, worse⟩

theorem declines_foldl {sources : List (Symbol × PhraseRule κ)} (h : state.1.IsOrderly)
    (given : ∀ source ∈ sources, state.1.Offerable source) :
    ∀ source ∈ sources, (sources.foldl offer state).1.Declines source := by
  induction sources generalizing state with
  | nil => exact fun _ mem => absurd mem List.not_mem_nil
  | cons first rest ih =>
    obtain ⟨head, tail⟩ := List.forall_mem_cons.mp given
    have size : ∀ source, (offer state source).1.size = state.1.size := fun _ => size_update ..
    rw [List.foldl_cons]
    refine List.forall_mem_cons.mpr ⟨?_, ih (h.offer head) fun source mem =>
      (tail source mem).congr (size first)⟩
    refine (List.foldlRecOn (motive := fun later : Grammar κ × Changes => later.1.IsOrderly ∧
      later.1.size = state.1.size ∧ later.1.Declines first) rest offer
      ⟨h.offer head, size first, declines_offer h head⟩ ?_).2.2
    rintro later ⟨orderly, same, declines⟩ source mem
    have offerable := (tail source mem).congr same
    exact ⟨orderly.offer offerable, (size_update ..).trans same,
      declines.offer orderly head.elided offerable⟩

theorem declines_insertWith (h : grammar.IsOrderly) :
    ∀ source ∈ grammar.insertionOffers best, (grammar.insertWith best).1.Declines source :=
  declines_foldl h fun _ mem => h.sound.offerable mem

end Declined

theorem rulesOf_insertWith (h : ∀ made, (symbol, made) ∈ grammar.insertionOffers best →
    grammar.Declines (symbol, made)) :
    (grammar.insertWith best).1.rulesOf symbol = grammar.rulesOf symbol := by
  refine (List.foldlRecOn (motive := fun state : Grammar κ × Changes =>
    state.1.rulesOf symbol = grammar.rulesOf symbol ∧ state.1.nameOf = grammar.nameOf) _ offer
    ⟨rfl, rfl⟩ fun state held source mem => ?_).1
  obtain ⟨rules, nameOf⟩ := held
  have names : (offer state source).1.nameOf = state.1.nameOf :=
    funext (nameOf_eq_of_bare (bare_setRules ..))
  refine ⟨?_, names.trans nameOf⟩
  rw [offer_fst]
  by_cases here : symbol = source.1
  · subst here
    have declines : offerRule grammar.nameOf source.2 (grammar.rulesOf source.1) = _ :=
      h source.2 mem
    rw [rules, nameOf, declines, ← rules, setRules_rulesOf]
  · rw [rulesOf_setRules_of_ne here, rules]

theorem SpreadsWithin.insertionRound {filled : Symbol → Prop} {feeds : Symbol → Symbol → Prop}
    (h : grammar.SpreadsWithin filled feeds) :
    grammar.insertionRound.1.SpreadsWithin filled feeds where
  empty := h.empty
  zeroFiller symbol some := by
    have same : grammar.insertionRound.1.bare = grammar.bare := bare_insertWith _
    rw [zeroFiller?_eq_of_bare same] at some
    exact h.zeroFiller symbol some
  word symbol rule mem costs := by
    rcases of_mem_insertWith mem with old | ⟨made, same, -⟩
    · exact h.word symbol rule old costs
    · exact nomatch same
  phrase symbol rule mem origin := by
    rcases of_mem_insertWith mem with old | ⟨made, same, offered⟩
    · exact h.phrase symbol rule old origin
    · obtain rfl := Rule.phrase.inj same
      obtain ⟨pair, present, inserted⟩ := mem_insertionOffers.mp offered
      have authored : pair.origin ≠ .transposition := by
        rw [(PhraseRule.insertion?_eq_some.mp inserted).1]
        exact nofun
      exact (h.phrase symbol pair present authored).insertion h.fillers inserted

theorem afterRounds_induction {Q : Grammar κ → Prop}
    (round : ∀ {grammar : Grammar κ}, Q grammar → Q grammar.insertionRound.1) (h : Q grammar)
    (rounds : Nat) : Q (grammar.afterRounds rounds) := by
  induction rounds with
  | zero => exact h
  | succ rounds ih =>
    rw [afterRounds_succ]
    exact round ih

theorem bare_afterRounds (grammar : Grammar κ) (rounds : Nat) :
    (grammar.afterRounds rounds).bare = grammar.bare :=
  afterRounds_induction (Q := fun grown => grown.bare = grammar.bare)
    (fun h => (bare_insertWith _).trans h) rfl rounds

section Still

variable {filled : Symbol → Prop} {feeds : Symbol → Symbol → Prop} {rank : Symbol → Nat}
  (within : grammar.SpreadsWithin filled feeds)
  (ranked : ∀ child parent, feeds child parent → filled child ∧ rank child < rank parent)
  {bound rounds : Nat}

include within

include ranked in
theorem fillers_still
    (rules : ∀ symbol, filled symbol → rank symbol < bound →
      (grammar.afterRounds (rounds + 1)).rulesOf symbol =
        (grammar.afterRounds rounds).rulesOf symbol) :
    ∀ symbol, filled symbol → rank symbol < bound →
      (grammar.afterRounds (rounds + 1)).fillers.of? symbol =
        (grammar.afterRounds rounds).fillers.of? symbol := by
  intro symbol known low
  have inner := afterRounds_induction SpreadsWithin.insertionRound within
  have bare : (grammar.afterRounds (rounds + 1)).bare = (grammar.afterRounds rounds).bare := by
    rw [bare_afterRounds, bare_afterRounds]
  have alike := alike_fillers (P := fun symbol => filled symbol ∧ rank symbol < bound) bare
    (inner rounds) (inner (rounds + 1))
    (fun symbol here => ⟨here.1, fun child feeding =>
      (ranked child symbol feeding).imp_right fun less => Nat.lt_trans less here.2⟩)
    fun symbol here => rules symbol here.1 here.2
  exact (alike.agree.of? symbol ⟨known, low⟩).symm

variable [TransOrd κ] (orderly : grammar.IsOrderly)

include orderly

/-- Where a round leaves the fillers of all that feed a symbol, the next one offers it only what
has been offered before. -/
theorem declines_of_fillers_still
    (fillers : ∀ child, filled child → rank child < bound →
      (grammar.afterRounds (rounds + 1)).fillers.of? child =
        (grammar.afterRounds rounds).fillers.of? child)
    (low : ∀ child, filled child → (filled symbol → feeds child symbol) → rank child < bound)
    {made : PhraseRule κ}
    (offered : (symbol, made) ∈ (grammar.afterRounds (rounds + 1)).insertionOffers
      (grammar.afterRounds (rounds + 1)).fillers) :
    (grammar.afterRounds (rounds + 1)).Declines (symbol, made) := by
  have inner := afterRounds_induction SpreadsWithin.insertionRound within
  obtain ⟨pair, present, inserted⟩ := mem_insertionOffers.mp offered
  have origin := (PhraseRule.insertion?_eq_some.mp inserted).1
  rw [afterRounds_succ] at present
  have before : .phrase pair ∈ (grammar.afterRounds rounds).rulesOf symbol :=
    (authored_mem_insertWith origin).mp present
  have spreads := (inner rounds).phrase symbol pair before (origin ▸ nofun)
  have same : pair.insertion? (grammar.afterRounds (rounds + 1)).fillers =
      pair.insertion? (grammar.afterRounds rounds).fillers := by
    refine PhraseRule.insertion?_congr fun slot position mem allowed => ?_
    by_cases child : filled slot.symbol
    · exact fillers _ child (low _ child (spreads.feeds slot position mem allowed child))
    · have none : ∀ rounds, (grammar.afterRounds rounds).fillers.of? slot.symbol = none :=
        fun rounds => Option.not_isSome_iff_eq_none.mp (mt ((inner rounds).fillers _) child)
      rw [none, none]
  have again : (symbol, made) ∈
      (grammar.afterRounds rounds).insertionOffers (grammar.afterRounds rounds).fillers :=
    mem_insertionOffers.mpr ⟨pair, before, same ▸ inserted⟩
  rw [afterRounds_succ]
  exact declines_insertWith (afterRounds_induction IsOrderly.insertionRound orderly rounds) _ again

include ranked

/-- The rules of a symbol change no more after as many rounds as there are ranks below its own, its
own included. -/
theorem rules_still (bound : Nat) : ∀ rounds, bound ≤ rounds → ∀ symbol, filled symbol →
    rank symbol < bound → (grammar.afterRounds (rounds + 1)).rulesOf symbol =
      (grammar.afterRounds rounds).rulesOf symbol := by
  induction bound with
  | zero => exact fun _ _ _ _ low => absurd low (Nat.not_lt_zero _)
  | succ bound ih =>
    intro rounds enough symbol known low
    obtain ⟨before, rfl⟩ := Nat.exists_eq_add_of_lt enough
    have fillers := fillers_still within ranked (ih (bound + before) (Nat.le_add_right _ _))
    rw [afterRounds_succ]
    refine rulesOf_insertWith fun made offered => ?_
    refine declines_of_fillers_still within orderly fillers (fun child _ feeding => ?_) offered
    exact Nat.lt_of_lt_of_le (ranked child symbol (feeding known)).2 (Nat.le_of_lt_succ low)

/-- Two rounds more than there are ranks below the highest one are enough. -/
theorem insertionRound_afterRounds (low : ∀ symbol, filled symbol → rank symbol < bound) :
    (grammar.afterRounds (bound + 1)).insertionRound.2 = .none := by
  have fillers := fillers_still within ranked
    (rules_still within ranked orderly bound bound (Nat.le_refl _))
  exact insertionRound_eq_iff.mpr fun source mem =>
    declines_of_fillers_still within orderly fillers (fun child known _ => low child known) mem

end Still

section Feeders

open Classical in
/-- The symbols that feed another, directly or through others. -/
noncomputable def feeders (grammar : Grammar κ) (symbol : Symbol) : Finset Nat :=
  (Finset.range grammar.size).filter fun index =>
    Relation.TransGen grammar.Feeds ⟨index⟩ symbol

omit [Cost κ] in
theorem mem_feeders {index : Nat} :
    index ∈ grammar.feeders symbol ↔
      index < grammar.size ∧ Relation.TransGen grammar.Feeds ⟨index⟩ symbol := by
  classical
  rw [feeders, Finset.mem_filter, Finset.mem_range]

omit [Cost κ] in
theorem IsSound.lt_size_of_feeds (h : grammar.IsSound) {child parent : Symbol}
    (feeds : grammar.Feeds child parent) : child.index < grammar.size := by
  obtain ⟨-, -, rule, mem, -, slot, position, there, -, rfl⟩ := feeds
  exact PhraseRule.IsSound.children (h.rule mem) _
    (List.mem_map_of_mem (List.fst_mem_of_mem_zipIdx there))

omit [Cost κ] in
/-- Where no symbol feeds itself, those that feed others have fewer feeders. -/
theorem card_feeders_lt (sound : grammar.IsSound)
    (acyclic : ∀ symbol, ¬ Relation.TransGen grammar.Feeds symbol symbol) {child parent : Symbol}
    (feeds : grammar.Feeds child parent) :
    (grammar.feeders child).card < (grammar.feeders parent).card := by
  refine Finset.card_lt_card (Finset.ssubset_iff_of_subset ?_ |>.mpr
    ⟨child.index, mem_feeders.mpr ⟨sound.lt_size_of_feeds feeds, .single feeds⟩, ?_⟩)
  · intro index mem
    obtain ⟨known, path⟩ := mem_feeders.mp mem
    exact mem_feeders.mpr ⟨known, path.tail feeds⟩
  · exact fun mem => acyclic child (mem_feeders.mp mem).2

theorem card_feeders_add_two_le (sound : grammar.IsSound) (collapsed : grammar.IsCollapsed)
    (acyclic : ∀ symbol, ¬ Relation.TransGen grammar.Feeds symbol symbol) (symbol : Symbol) :
    (grammar.feeders symbol).card + 2 ≤ grammar.size := by
  have empty : Symbol.empty.index < grammar.size := entryOf?_isSome.mp (sound.empty ▸ rfl)
  rcases (grammar.feeders symbol).eq_empty_or_nonempty with none | ⟨index, mem⟩
  · rw [none, Finset.card_empty]
    exact empty
  · obtain ⟨parent, -, last⟩ := Relation.TransGen.tail'_iff.mp (mem_feeders.mp mem).2
    obtain ⟨-, -, rule, present, -⟩ := last
    have known : symbol.index < grammar.size := lt_size_of_mem_rulesOf present
    have apart : symbol.index ≠ Symbol.empty.index :=
      fun same => sound.ne_empty present (congrArg Symbol.mk same)
    have inside : grammar.feeders symbol ⊆
        ((Finset.range grammar.size).erase Symbol.empty.index).erase symbol.index := by
      intro index mem
      obtain ⟨here, path⟩ := mem_feeders.mp mem
      refine Finset.mem_erase.mpr ⟨?_, Finset.mem_erase.mpr ⟨?_, Finset.mem_range.mpr here⟩⟩
      · rintro rfl
        exact acyclic symbol path
      · -- No rule has the empty symbol left as a child.
        rintro rfl
        obtain ⟨parent, first, -⟩ := Relation.TransGen.head'_iff.mp path
        obtain ⟨-, -, rule, mem, -, slot, position, there, -, same⟩ := first
        have stays := isCollapsed_iff.mp collapsed _ _ mem
        refine Bool.false_ne_true (stays.symm.trans (PhraseRule.hasVanishing_iff.mpr
          ⟨slot, List.fst_mem_of_mem_zipIdx there, ?_⟩))
        rw [same, vanishing_of?, if_pos empty]
        rfl
    have card := Finset.card_le_card inside
    rw [Finset.card_erase_of_mem (Finset.mem_erase.mpr ⟨apart, Finset.mem_range.mpr known⟩),
      Finset.card_erase_of_mem (Finset.mem_range.mpr empty), Finset.card_range] at card
    have two : 2 ≤ grammar.size := empty
    omega

omit [Cost κ] in
theorem acyclic_of_rank (rank : Symbol → Nat)
    (lower : ∀ index < grammar.size, ∀ rule ∈ grammar.rulesOf ⟨index⟩, ∀ child ∈ rule.children,
      rank child < rank ⟨index⟩) (symbol : Symbol) :
    ¬ Relation.TransGen grammar.Feeds symbol symbol := by
  have step : ∀ {child parent}, grammar.Feeds child parent → rank child < rank parent := by
    rintro child parent ⟨-, -, rule, mem, -, slot, position, there, -, rfl⟩
    exact lower parent.index (lt_size_of_mem_rulesOf mem) _ mem _
      (List.mem_map_of_mem (List.fst_mem_of_mem_zipIdx there))
  intro path
  have less : Relation.TransGen (· < ·) (rank symbol) (rank symbol) :=
    path.lift rank fun _ _ => step
  rw [Relation.transGen_eq_self] at less
  exact Nat.lt_irrefl _ less

end Feeders

theorem insertionRounds_settles {rounds enough : Nat} (tally : Tally)
    (h : (grammar.afterRounds rounds).insertionRound.2 = .none) (more : rounds < enough) :
    (insertionRounds enough grammar tally).2.settled = true := by
  induction enough generalizing grammar tally rounds with
  | zero => exact absurd more (Nat.not_lt_zero _)
  | succ enough ih =>
    rw [insertionRounds_succ]
    split
    case isTrue settled => exact settled
    case isFalse unsettled =>
      cases rounds with
      | zero => exact absurd (decide_eq_true h) unsettled
      | succ rounds =>
        have later : (grammar.insertionRound.1.afterRounds rounds).insertionRound.2 = .none := h
        exact ih _ later (Nat.lt_of_succ_lt_succ more)

/-- Where no symbol feeds itself, the rounds of insertion end with one that changes nothing: each
round settles the symbols all of whose feeders were settled before. -/
theorem run_derive_settles [TransOrd κ] {operations : List (Operation κ)}
    (plain : ∀ operation ∈ operations, operation.IsPlain) {left : Grammar κ} {count : Nat}
    (collapse : (run operations).collapse = (left, .ok count))
    (acyclic : ∀ symbol, ¬ Relation.TransGen left.Feeds symbol symbol) :
    ∃ tally, (run operations).derive.2 = .ok tally ∧ tally.settled = true := by
  have orderly : left.IsOrderly := by
    have kept : (run operations).collapse.1.IsOrderly :=
      collapse_induction (Q := IsOrderly)
        (fun h => ⟨h.sound.collapseRound, h.names.collapseRound fun _ _ => .of_origin nofun⟩)
        ⟨.run operations, run_namesElided plain⟩
    rwa [collapse] at kept
  have ranked : ∀ child parent, left.Feeds child parent →
      left.Fillable child ∧ (left.feeders child).card < (left.feeders parent).card :=
    fun child parent feeds => ⟨feeds.1, card_feeders_lt orderly.sound acyclic feeds⟩
  have low := card_feeders_add_two_le orderly.sound (collapse_isCollapsed collapse) acyclic
  have last : (left.afterRounds (left.size - 1 + 1)).insertionRound.2 = .none :=
    insertionRound_afterRounds left.spreadsWithin_feeds ranked orderly fun symbol _ => by
      have := low symbol
      omega
  rcases derive_eq (run operations) with ⟨left', fault, same, -⟩ | ⟨left', count', same, done⟩
  · rw [collapse] at same
    exact nomatch (Prod.mk.inj same).2
  · rw [collapse] at same
    obtain ⟨rfl, -⟩ := Prod.mk.inj same
    rw [done]
    refine ⟨_, rfl, insertionRounds_settles (.ofCollapsed count') last ?_⟩
    have := low .start
    omega

/-- A mark that may be left out stands after a word, and a sentence is such a pair with a mark. -/
def markedWord : List (Operation Float) :=
  [.newSymbol ["word"], .newSymbol ["mark"], .newSymbol ["pair"],
    .addRule ⟨2⟩ (.word (.ofLiteral "word")),
    .addRule ⟨3⟩ (.word { WordRule.ofLiteral "mark" with insertionCost := some 1 }),
    .addRule ⟨4⟩ (.phrase (.ofSymbols [⟨3⟩, ⟨3⟩])),
    .addRule .start (.phrase (.ofSymbols [⟨2⟩, ⟨4⟩]))]

theorem markedWord_isPlain : ∀ operation ∈ markedWord, operation.IsPlain := by
  simp only [markedWord, List.forall_mem_cons]
  exact ⟨trivial, trivial, trivial, Rule.isPlain_ofLiteral, Rule.isPlain_ofLiteral,
    Rule.isPlain_ofSlots, Rule.isPlain_ofSlots, List.forall_mem_nil _⟩

/-- The pair is found to match a single mark, and the sentence to match the word alone. -/
theorem markedWord_derive_settles :
    ∃ tally, (run markedWord).derive.2 = .ok tally ∧ tally.settled = true := by
  have collapse : (run markedWord).collapse = ((run markedWord).collapse.1, .ok 0) :=
    Prod.ext rfl (by decide +kernel)
  refine run_derive_settles markedWord_isPlain collapse (acyclic_of_rank
    (fun symbol => if symbol = .start then 5 else symbol.index) ?_)
  decide +kernel

/-- A mark that may be left out at no cost comes before any number of symbols of one kind, each of
which has a meaning of its own. -/
def freeLoop : List (Operation Float) :=
  [.newSymbol ["phrase"], .newSymbol ["mark"],
    .declareArgument "m" 0, .declareArgument "k" 0,
    .addRule ⟨3⟩ (.word { WordRule.ofLiteral "mark" with insertionCost := some 0 }),
    .addRule ⟨2⟩ (.word { WordRule.ofLiteral "word" with
      insertionCost := some 0, meaning := some (.argument "m") }),
    .addRule ⟨2⟩ (.phrase { PhraseRule.ofSlots [{ Slot.ofSymbol ⟨3⟩ with silent := true },
      .ofSymbol ⟨2⟩] with meaning := some (.argument "k") })]

/-- Where a symbol feeds itself at no cost, its filler gets one more meaning in every pass of every
round, and the rounds end before the rules have settled. -/
theorem freeLoop_derive_unsettled :
    (∀ operation ∈ freeLoop, operation.IsPlain) ∧
      ∃ tally, (run freeLoop).derive.2 = .ok tally ∧ tally.settled = false ∧
        tally.rounds = (run freeLoop).size + 1 := by
  refine ⟨?_, ⟨0, 1, 4, 0, 5, false⟩, by decide +kernel, rfl, by decide +kernel⟩
  simp only [freeLoop, List.forall_mem_cons]
  exact ⟨trivial, trivial, trivial, trivial, Rule.isPlain_ofLiteral,
    Rule.isPlain_ofLiteral, Rule.isPlain_ofSlots, List.forall_mem_nil _⟩

end Grammar

end PhraseGrammar
