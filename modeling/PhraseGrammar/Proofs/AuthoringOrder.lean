import PhraseGrammar.Proofs.BestOffers
import PhraseGrammar.Proofs.Counterparts

/-! The order in which symbols are made and rules are added. It plays no part in collapsing and in
transposition, and in insertion only through the fillers that the rounds find. -/

namespace PhraseGrammar

open Std

variable {κ : Type}

def Renamed (π : Symbol → Symbol) (P P' : PhraseRule κ → Prop) : Prop :=
  ∀ made, P' made ↔ ∃ own, P own ∧ own.rename π = made

theorem Rule.origin_rename (π : Symbol → Symbol) (rule : Rule κ) :
    (rule.rename π).origin = rule.origin := by
  cases rule <;> rfl

theorem Rule.rename_eq_phrase {π : Symbol → Symbol} {rule : Rule κ} {made : PhraseRule κ} :
    rule.rename π = .phrase made ↔ ∃ own, rule = .phrase own ∧ own.rename π = made := by
  cases rule with
  | word rule => exact ⟨nofun, fun ⟨_, h, _⟩ => (nomatch h)⟩
  | phrase rule =>
    constructor
    · exact fun same => ⟨rule, rfl, Rule.phrase.inj same⟩
    · rintro ⟨own, same, rfl⟩
      rw [Rule.phrase.inj same]
      rfl

namespace PhraseRule

variable [Cost κ] {size : Nat} {rule : PhraseRule κ} {pair : Slot × Slot}

theorem IsBelow.eliding (h : rule.IsBelow size) (slots : rule.slots = [pair.1, pair.2])
    (place : Place) (filler : Filler κ) : (rule.eliding pair place filler).IsBelow size := by
  have first : pair.1.symbol.index < size := h.slots _ (slots ▸ List.mem_cons_self)
  have second : pair.2.symbol.index < size :=
    h.slots _ (slots ▸ List.mem_cons_of_mem _ (List.mem_singleton_self _))
  refine ⟨fun slot mem => ?_, fun child same => ?_⟩
  · rw [List.mem_singleton.mp mem]
    cases place with
    | first => exact second
    | second => exact first
  · obtain rfl := Option.some.inj same
    cases place with
    | first => exact first
    | second => exact second

theorem IsBelow.swapping (h : rule.IsBelow size) (slots : rule.slots = [pair.1, pair.2])
    (cost : κ) : (rule.swapping pair cost).IsBelow size := by
  refine ⟨fun slot mem => h.slots slot ?_, nofun⟩
  have swapped : slot ∈ [pair.2, pair.1] := mem
  rw [List.mem_pair] at swapped
  rw [slots, List.mem_pair]
  exact swapped.symm

end PhraseRule

namespace Grammar

variable [Cost κ] {left left' : Grammar κ} {π : Symbol → Symbol}

namespace Mirrors

variable (h : left.Mirrors π left') {symbol : Symbol} (known : symbol.index < left.size)

include h known

omit [Cost κ] in
/-- A rule is there with a right-hand side just when it is there in the mirror. -/
theorem fresh_iff {own : PhraseRule κ} (below : own.IsBelow left.size) :
    (∀ present ∈ left'.rulesOf (π symbol), present.side ≠ .phrase (own.rename π).symbols) ↔
      ∀ present ∈ left.rulesOf symbol, present.side ≠ .phrase own.symbols := by
  simp only [(h.rules symbol known).mem_iff, List.forall_mem_map]
  refine forall₂_congr fun present mem => ?_
  have below' : (Rule.phrase own).IsBelow left.size := below
  exact (h.ren.side_inj (h.below symbol present mem) below').not

omit [Cost κ] in
theorem phrase_mem {made : PhraseRule κ} :
    .phrase made ∈ left'.rulesOf (π symbol) ↔
      ∃ own, .phrase own ∈ left.rulesOf symbol ∧ own.rename π = made := by
  rw [(h.rules symbol known).mem_iff, List.mem_map]
  simp only [Rule.rename_eq_phrase]
  constructor
  · rintro ⟨_, mem, own, rfl, same⟩
    exact ⟨own, mem, same⟩
  · rintro ⟨own, mem, same⟩
    exact ⟨_, mem, own, rfl, same⟩

theorem isTransposed :
    Renamed π (IsTransposed (left.rulesOf symbol)) (IsTransposed (left'.rulesOf (π symbol))) := by
  have below : ∀ {pair own : PhraseRule κ}, .phrase pair ∈ left.rulesOf symbol →
      pair.transposition? = some own → own.IsBelow left.size := by
    intro pair own mem swapped
    obtain ⟨-, slots, cost, same, -, rfl⟩ := PhraseRule.transposition?_eq_some.mp swapped
    exact PhraseRule.IsBelow.swapping (h.below symbol _ mem) same cost
  intro made
  constructor
  · rintro ⟨⟨pair', mem, swapped⟩, fresh⟩
    obtain ⟨pair, there, rfl⟩ := (h.phrase_mem known).mp mem
    rw [PhraseRule.transposition?_rename, Option.map_eq_some_iff] at swapped
    obtain ⟨own, swapped, rfl⟩ := swapped
    exact ⟨own, ⟨⟨pair, there, swapped⟩, (h.fresh_iff known (below there swapped)).mp fresh⟩, rfl⟩
  · rintro ⟨own, ⟨⟨pair, there, swapped⟩, fresh⟩, rfl⟩
    refine ⟨⟨pair.rename π, (h.phrase_mem known).mpr ⟨pair, there, rfl⟩, ?_⟩,
      (h.fresh_iff known (below there swapped)).mpr fresh⟩
    rw [PhraseRule.transposition?_rename, swapped, Option.map_some]

omit h known in
theorem isBelow_of_inserts (h : left.Mirrors π left') {rounds : Nat} {own : PhraseRule κ}
    (offered : left.Inserts rounds symbol own) : own.IsBelow left.size := by
  obtain ⟨n, -, pair, mem, made⟩ := offered
  obtain ⟨-, -, slots, place, filler, same, -, rfl⟩ := PhraseRule.insertion?_eq_some.mp made
  exact PhraseRule.IsBelow.eliding (h.below symbol _ mem) same place filler

/-- As long as the rounds find the same fillers, they make the same offers. -/
theorem inserts {rounds : Nat}
    (agree : ∀ n < rounds,
      Fillers.Agree left.size π (left.afterRounds n).fillers (left'.afterRounds n).fillers) :
    Renamed π (left.Inserts rounds symbol) (left'.Inserts rounds (π symbol)) := by
  intro made
  constructor
  · rintro ⟨n, before, pair', mem, offered⟩
    obtain ⟨pair, there, rfl⟩ := (h.phrase_mem known).mp mem
    rw [PhraseRule.insertion?_rename (agree n before) (h.below symbol _ there),
      Option.map_eq_some_iff] at offered
    obtain ⟨own, offered, rfl⟩ := offered
    exact ⟨own, ⟨n, before, pair, there, offered⟩, rfl⟩
  · rintro ⟨own, ⟨n, before, pair, there, offered⟩, rfl⟩
    refine ⟨n, before, pair.rename π, (h.phrase_mem known).mpr ⟨pair, there, rfl⟩, ?_⟩
    rw [PhraseRule.insertion?_rename (agree n before) (h.below symbol _ there), offered,
      Option.map_some]

omit known in
theorem least_iff {offers offers' : PhraseRule κ → Prop} (renamed : Renamed π offers offers')
    (below : ∀ own, offers own → own.IsBelow left.size) {own : PhraseRule κ}
    (offered : offers own) :
    (∀ other, offers' other → other.symbols = (own.rename π).symbols →
        other.compare left'.nameOf (own.rename π) ≠ .lt) ↔
      ∀ other, offers other → other.symbols = own.symbols →
        other.compare left.nameOf own ≠ .lt := by
  constructor
  · intro least other there same
    have alike : (other.rename π).symbols = (own.rename π).symbols := by
      rw [PhraseRule.symbols_rename, PhraseRule.symbols_rename, same]
    have better := least _ ((renamed _).mpr ⟨other, there, rfl⟩) alike
    rwa [PhraseRule.compare_rename h.names (below other there) (below own offered)] at better
  · intro least other' offered' same
    obtain ⟨other, there, rfl⟩ := (renamed other').mp offered'
    rw [PhraseRule.symbols_rename, PhraseRule.symbols_rename] at same
    rw [PhraseRule.compare_rename h.names (below other there) (below own offered)]
    exact least other there
      (h.ren.map_inj (below other there).symbols (below own offered).symbols same)

theorem bestInsertion
    (agree : ∀ n < left.size + 1,
      Fillers.Agree left.size π (left.afterRounds n).fillers (left'.afterRounds n).fillers) :
    Renamed π (left.BestInsertion symbol) (left'.BestInsertion (π symbol)) := by
  have renamed : Renamed π (left.Inserts (left.size + 1) symbol)
      (left'.Inserts (left'.size + 1) (π symbol)) := by
    rw [h.size]
    exact h.inserts known agree
  have below : ∀ own, left.Inserts (left.size + 1) symbol own → own.IsBelow left.size :=
    fun own => h.isBelow_of_inserts
  intro made
  constructor
  · rintro ⟨offered, fresh, least⟩
    obtain ⟨own, there, rfl⟩ := (renamed made).mp offered
    exact ⟨own, ⟨there, (h.fresh_iff known (below own there)).mp fresh,
      (h.least_iff renamed below there).mp least⟩, rfl⟩
  · rintro ⟨own, ⟨offered, fresh, least⟩, rfl⟩
    exact ⟨(renamed _).mpr ⟨own, offered, rfl⟩, (h.fresh_iff known (below own offered)).mpr fresh,
      (h.least_iff renamed below offered).mpr least⟩

end Mirrors

namespace Mirrors

variable [TransOrd κ] [LawfulEqOrd κ] {grammar other : Grammar κ} {count count' : Nat}
  (h : left.Mirrors π left')
  (collapsed : grammar.collapse = (left, .ok count))
  (collapsed' : other.collapse = (left', .ok count'))
  (sound : left.IsSound) (sound' : left'.IsSound)
  (plain : left.AllRules fun rule => rule.origin ≠ .insertion)
  (plain' : left'.AllRules fun rule => rule.origin ≠ .insertion)
  {symbol : Symbol} (known : symbol.index < left.size)

include h collapsed collapsed' sound sound' plain plain' known

theorem mem_rulesOf_derive {rule : Rule κ} (origin : rule.origin ≠ .insertion) :
    rule ∈ other.derive.1.rulesOf (π symbol) ↔
      ∃ own ∈ grammar.derive.1.rulesOf symbol, own.rename π = rule := by
  rw [mem_rulesOf_derive_of_ne collapsed' sound' plain' origin,
    (h.rules symbol known).mem_iff, List.mem_map]
  constructor
  · rintro (⟨own, mem, rfl⟩ | ⟨made, rfl, swapped⟩)
    · rw [Rule.origin_rename] at origin
      exact ⟨own, (mem_rulesOf_derive_of_ne collapsed sound plain origin).mpr (.inl mem), rfl⟩
    · obtain ⟨own, there, rfl⟩ := (h.isTransposed known made).mp swapped
      have origin : (Rule.phrase own).origin ≠ .insertion := origin
      exact ⟨.phrase own, (mem_rulesOf_derive_of_ne collapsed sound plain origin).mpr
        (.inr ⟨own, rfl, there⟩), rfl⟩
  · rintro ⟨own, mem, rfl⟩
    rw [Rule.origin_rename] at origin
    rcases (mem_rulesOf_derive_of_ne collapsed sound plain origin).mp mem with
      mem | ⟨made, rfl, swapped⟩
    · exact .inl ⟨own, mem, rfl⟩
    · exact .inr ⟨made.rename π, rfl, (h.isTransposed known _).mpr ⟨made, swapped, rfl⟩⟩

theorem mem_rulesOf_derive_iff :
    (∀ rule, rule ∈ other.derive.1.rulesOf (π symbol) ↔
        ∃ own ∈ grammar.derive.1.rulesOf symbol, own.rename π = rule) ↔
      Renamed π (left.BestInsertion symbol) (left'.BestInsertion (π symbol)) := by
  have phrases : ∀ {made : PhraseRule κ}, made.origin = .insertion →
      ((∃ own ∈ grammar.derive.1.rulesOf symbol, own.rename π = .phrase made) ↔
        ∃ own, left.BestInsertion symbol own ∧ own.rename π = made) := by
    intro made origin
    simp only [Rule.rename_eq_phrase]
    constructor
    · rintro ⟨_, mem, own, rfl, rfl⟩
      have origin : own.origin = .insertion := origin
      exact ⟨own, (phrase_mem_derive collapsed sound plain origin).mp mem, rfl⟩
    · rintro ⟨own, best, rfl⟩
      have origin : own.origin = .insertion := origin
      exact ⟨_, (phrase_mem_derive collapsed sound plain origin).mpr best, own, rfl, rfl⟩
  constructor
  · intro same made
    constructor
    · intro best
      have origin := origin_of_inserts best.offered
      exact (phrases origin).mp
        ((same _).mp ((phrase_mem_derive collapsed' sound' plain' origin).mpr best))
    · rintro ⟨own, best, rfl⟩
      have own_origin : own.origin = .insertion := origin_of_inserts best.offered
      have origin : (own.rename π).origin = .insertion := own_origin
      exact (phrase_mem_derive collapsed' sound' plain' origin).mp
        ((same _).mpr ((phrases origin).mpr ⟨own, best, rfl⟩))
  · intro best rule
    by_cases origin : rule.origin = .insertion
    · cases rule with
      | word rule => exact nomatch origin
      | phrase made =>
        rw [phrase_mem_derive collapsed' sound' plain' origin, phrases origin]
        exact best made
    · exact h.mem_rulesOf_derive collapsed collapsed' sound sound' plain plain' known origin

end Mirrors

def SameBestInsertions (grammar other : Grammar κ) : Prop :=
  ∀ symbol, symbol.index < grammar.size →
    Renamed (grammar.counterpart other) (grammar.BestInsertion symbol)
      (other.BestInsertion (grammar.counterpart other symbol))

/-- In every round of insertion the same filler is found for each name. -/
def SameFillers (grammar other : Grammar κ) : Prop :=
  ∀ rounds < grammar.size + 1, Fillers.Agree grammar.size (grammar.counterpart other)
    (grammar.afterRounds rounds).fillers (other.afterRounds rounds).fillers

theorem Mirrors.sameBestInsertions (h : left.Mirrors π left') (same : left.counterpart left' = π)
    (fillers : left.SameFillers left') : left.SameBestInsertions left' := by
  subst same
  exact fun _ known => h.bestInsertion known fillers

theorem bare_derive {grammar : Grammar κ} {count : Nat}
    (h : grammar.collapse = (left, .ok count)) : grammar.derive.1.bare = left.bare := by
  have rounds : ∀ rounds, (left.afterRounds rounds).bare = left.bare := by
    intro rounds
    induction rounds with
    | zero => rfl
    | succ rounds ih => rw [afterRounds_succ, insertionRound, bare_insertWith, ih]
  rw [derive_fst h, bare_transpose, rounds]

theorem exists_derive_ok_iff {grammar : Grammar κ} :
    (∃ tally, grammar.derive.2 = .ok tally) ↔ ∃ count, grammar.collapse.2 = .ok count := by
  rcases derive_eq grammar with ⟨other, fault, same, done⟩ | ⟨other, count, same, done⟩
  · rw [done, same]
    exact ⟨fun ⟨_, h⟩ => (nomatch h), fun ⟨_, h⟩ => (nomatch h)⟩
  · rw [done, same]
    exact ⟨fun _ => ⟨count, rfl⟩, fun _ => ⟨_, rfl⟩⟩

theorem exists_derive_ok_of_isCollapsed {grammar : Grammar κ} (h : grammar.IsCollapsed) :
    ∃ tally, grammar.derive.2 = .ok tally :=
  exists_derive_ok_iff.mpr ⟨0, congrArg Prod.snd (collapse_of_isCollapsed h)⟩

theorem IsSound.counterpart_collapse {grammar other : Grammar κ} (sound : other.IsSound) :
    grammar.collapse.1.counterpart other.collapse.1 = grammar.counterpart other :=
  counterpart_congr sound (collapse_induction .collapseRound sound) (collapse_names grammar).2
    (collapse_names other).1 (collapse_names other).2

theorem IsSound.counterpart_derive {grammar other : Grammar κ} (sound : other.IsSound) :
    grammar.derive.1.counterpart other.derive.1 = grammar.counterpart other :=
  counterpart_congr sound (.derive sound) (derive_names grammar).2 (derive_names other).1
    (derive_names other).2

namespace Mirrors

variable {grammar other : Grammar κ} {count count' : Nat}
  (h : left.Mirrors (grammar.counterpart other) left')
  (collapsed : grammar.collapse = (left, .ok count))
  (collapsed' : other.collapse = (left', .ok count')) (consistent : other.IsSound)

include h collapsed collapsed' consistent

theorem sameZeroFillers_derive : grammar.derive.1.SameZeroFillers other.derive.1 := by
  intro symbol known
  rw [(derive_names grammar).1, ← (collapse_names grammar).1, collapsed] at known
  rw [consistent.counterpart_derive, zeroFiller?_eq_of_bare (bare_derive collapsed),
    zeroFiller?_eq_of_bare (bare_derive collapsed')]
  exact h.zeroFillers symbol known

variable [TransOrd κ] [LawfulEqOrd κ] (sound : left.IsSound) (sound' : left'.IsSound)
  (plain : left.AllRules fun rule => rule.origin ≠ .insertion)
  (plain' : left'.AllRules fun rule => rule.origin ≠ .insertion)

include sound sound' plain plain'

theorem sameRules_derive :
    grammar.derive.1.SameRules (· ≠ .insertion) other.derive.1 := by
  intro symbol known rule origin
  rw [(derive_names grammar).1, ← (collapse_names grammar).1, collapsed] at known
  rw [consistent.counterpart_derive]
  exact h.mem_rulesOf_derive collapsed collapsed' sound sound' plain plain' known origin

theorem sameRules_derive_iff :
    grammar.derive.1.SameRules (fun _ => True) other.derive.1 ↔ left.SameBestInsertions left' := by
  have counterpart : left.counterpart left' = grammar.counterpart other := by
    rw [← consistent.counterpart_collapse, collapsed, collapsed']
  have size : grammar.derive.1.size = left.size := by
    rw [(derive_names grammar).1, ← (collapse_names grammar).1, collapsed]
  unfold SameRules SameBestInsertions
  rw [consistent.counterpart_derive, counterpart, size]
  refine forall₂_congr fun symbol known => ?_
  rw [← h.mem_rulesOf_derive_iff collapsed collapsed' sound sound' plain plain' known]
  exact forall_congr' fun rule => forall_prop_of_true trivial

end Mirrors

section Runs

variable [TransOrd κ] [LawfulEqOrd κ] {operations operations' : List (Operation κ)}

omit [TransOrd κ] [LawfulEqOrd κ] in
theorem run_collapse_plain (plain : ∀ operation ∈ operations, operation.IsPlain)
    (underived : .derive ∉ operations) :
    (run operations).collapse.1.IsSound ∧
      (run operations).collapse.1.AllRules fun rule => rule.origin ≠ .insertion := by
  refine ⟨collapse_induction .collapseRound (.run operations),
    collapse_induction (fun h => h.collapseRound fun _ _ => nofun) ?_⟩
  intro symbol rule mem
  have authored := (run_underived plain underived).1 symbol rule mem
  cases rule with
  | word rule => exact nofun
  | phrase rule =>
    have origin : rule.origin = .authored := authored.1
    change rule.origin ≠ .insertion
    rw [origin]
    exact nofun

/-- Of two runs that end in the same grammar up to order, both can be derived or neither, and only
the insertion rules can differ. They are the same just when the best ones are, and so they are when
the same fillers are found all along. -/
theorem run_derive_sameRules (plain : ∀ operation ∈ operations, operation.IsPlain)
    (underived : .derive ∉ operations) (plain' : ∀ operation ∈ operations', operation.IsPlain)
    (underived' : .derive ∉ operations')
    (same : (run operations).SameUpToOrder (run operations')) :
    ((∃ tally, (run operations).derive.2 = .ok tally) ↔
        ∃ tally, (run operations').derive.2 = .ok tally) ∧
      ((∃ tally, (run operations).derive.2 = .ok tally) →
        (run operations).derive.1.SameZeroFillers (run operations').derive.1 ∧
        (run operations).derive.1.SameRules (· ≠ .insertion) (run operations').derive.1 ∧
        ((run operations).derive.1.SameRules (fun _ => True) (run operations').derive.1 ↔
          (run operations).collapse.1.SameBestInsertions (run operations').collapse.1) ∧
        ((run operations).collapse.1.SameFillers (run operations').collapse.1 →
          (run operations).derive.1.SameRules (fun _ => True) (run operations').derive.1)) := by
  obtain ⟨authored, unfilled⟩ := run_underived plain underived
  obtain ⟨-, unfilled'⟩ := run_underived plain' underived'
  obtain ⟨sound, clean⟩ := run_collapse_plain plain underived
  obtain ⟨sound', clean'⟩ := run_collapse_plain plain' underived'
  have mirrors := same.mirrors (.run operations) (.run operations') authored unfilled unfilled'
  have counterpart : (run operations).collapse.1.counterpart (run operations').collapse.1 =
      (run operations).counterpart (run operations') :=
    (IsSound.run operations').counterpart_collapse
  rw [exists_derive_ok_iff, exists_derive_ok_iff]
  rcases mirrors.collapseRounds (Nat.lt_succ_self _) (Nat.lt_succ_self _) with
    ⟨fault, fault', failed, failed'⟩ | ⟨left, left', count, count', collapsed, collapsed', h⟩
  · rw [collapse, collapse, failed, failed']
    exact ⟨⟨fun ⟨_, h⟩ => (nomatch h), fun ⟨_, h⟩ => (nomatch h)⟩, fun ⟨_, h⟩ => (nomatch h)⟩
  have collapsed : (run operations).collapse = (left, .ok count) := collapsed
  have collapsed' : (run operations').collapse = (left', .ok count') := collapsed'
  rw [collapsed] at sound clean counterpart ⊢
  rw [collapsed'] at sound' clean' counterpart ⊢
  have best := h.sameRules_derive_iff collapsed collapsed' (.run operations') sound sound' clean
    clean'
  refine ⟨⟨fun _ => ⟨count', rfl⟩, fun _ => ⟨count, rfl⟩⟩, fun _ => ⟨?_, ?_, best, ?_⟩⟩
  · exact h.sameZeroFillers_derive collapsed collapsed' (.run operations')
  · exact h.sameRules_derive collapsed collapsed' (.run operations') sound sound' clean clean'
  · exact fun fillers => best.mpr (h.sameBestInsertions counterpart fillers)

end Runs

/-- A child has a dear filler with one meaning and a cheap one with two. Its parent has a function,
and a sentence may leave out the parent. -/
def arityChain (greatest : Nat) (first second : String) (parent child : Symbol) :
    List (Operation Float) :=
  [.newSymbol [first], .newSymbol [second], .newSymbol ["cheap"], .newSymbol ["word"],
    .declareFunction "f" 0 1 greatest false, .declareArgument "m" 0,
    .addRule ⟨4⟩ (.word { WordRule.ofLiteral "cheap" with
      insertionCost := some 1, meaning := some (.argument "m") }),
    .addRule child (.word { WordRule.ofLiteral "dear" with
      insertionCost := some 5, meaning := some (.argument "m") }),
    .addRule child (.phrase { PhraseRule.ofSymbols [⟨4⟩] with meaning := some (.argument "m") }),
    .addRule parent (.phrase { PhraseRule.ofSymbols [child] with meaning := some (.apply "f" []) }),
    .addRule ⟨5⟩ (.word (.ofLiteral "word")),
    .addRule .start (.phrase (.ofSymbols [⟨5⟩, parent]))]

theorem arityChain_isPlain (greatest : Nat) (first second : String) (parent child : Symbol) :
    ∀ operation ∈ arityChain greatest first second parent child, operation.IsPlain := by
  have word : ∀ rule : WordRule Float, rule.category = none → rule.range = none →
      rule.text.isSome = true → (Rule.word rule).IsPlain :=
    fun rule category range text => ⟨category, by rw [range]; exact nofun, fun _ => text⟩
  simp only [arityChain, List.forall_mem_cons]
  exact ⟨trivial, trivial, trivial, trivial, trivial, trivial, word _ rfl rfl rfl,
    word _ rfl rfl rfl, ⟨rfl, rfl, rfl⟩, ⟨rfl, rfl, rfl⟩, word _ rfl rfl rfl, ⟨rfl, rfl, rfl⟩,
    List.forall_mem_nil _⟩

theorem derive_not_mem_arityChain (greatest : Nat) (first second : String)
    (parent child : Symbol) : .derive ∉ arityChain greatest first second parent child := by
  simp [arityChain]

/-- The parent is made first, and takes its filler from the dear one before there is the cheap
one. -/
def parentFirst (greatest : Nat) : List (Operation Float) :=
  arityChain greatest "parent" "child" ⟨2⟩ ⟨3⟩

def childFirst (greatest : Nat) : List (Operation Float) :=
  arityChain greatest "child" "parent" ⟨3⟩ ⟨2⟩

theorem parentFirst_sameUpToOrder {greatest : Nat} (h : greatest ∈ [1, 2]) :
    (run (parentFirst greatest)).SameUpToOrder (run (childFirst greatest)) := by
  rcases List.mem_pair.mp h with rfl | rfl
  · refine .of_perm ?_ ?_ ?_ ?_ ?_ <;> decide +kernel
  · refine .of_perm ?_ ?_ ?_ ?_ ?_ <;> decide +kernel

theorem parentFirst_isCollapsed {greatest : Nat} (h : greatest ∈ [1, 2]) :
    (run (parentFirst greatest)).IsCollapsed := by
  unfold IsCollapsed
  rcases List.mem_pair.mp h with rfl | rfl
  · decide +kernel
  · decide +kernel

theorem parentFirst_sameFillers :
    (run (parentFirst 2)).collapse.1.SameFillers (run (childFirst 2)).collapse.1 := by
  have size : (run (parentFirst 2)).collapse.1.size = 6 := by decide +kernel
  have agree : ∀ rounds < 7, ∀ index < 6,
      ((run (childFirst 2)).collapse.1.afterRounds rounds).fillers.of?
          ((run (parentFirst 2)).collapse.1.counterpart (run (childFirst 2)).collapse.1 ⟨index⟩) =
        ((run (parentFirst 2)).collapse.1.afterRounds rounds).fillers.of? ⟨index⟩ := by
    decide +kernel
  intro rounds before symbol known
  rw [size] at before known
  exact agree rounds before symbol.index known

/-- A function that takes both meanings has the cheap filler in either order. -/
theorem parentFirst_derive_sameRules :
    (run (parentFirst 2)).SameUpToOrder (run (childFirst 2)) ∧
      (run (parentFirst 2)).derive.1.SameZeroFillers (run (childFirst 2)).derive.1 ∧
      (run (parentFirst 2)).derive.1.SameRules (fun _ => True) (run (childFirst 2)).derive.1 := by
  have plain : ∀ operation ∈ parentFirst 2, operation.IsPlain := arityChain_isPlain _ _ _ _ _
  have plain' : ∀ operation ∈ childFirst 2, operation.IsPlain := arityChain_isPlain _ _ _ _ _
  have same : (run (parentFirst 2)).SameUpToOrder (run (childFirst 2)) :=
    parentFirst_sameUpToOrder (by decide)
  have ok : ∃ tally, (run (parentFirst 2)).derive.2 = .ok tally :=
    exists_derive_ok_of_isCollapsed (parentFirst_isCollapsed (by decide))
  obtain ⟨zeroFillers, -, -, all⟩ :=
    (run_derive_sameRules plain (derive_not_mem_arityChain _ _ _ _ _) plain'
      (derive_not_mem_arityChain _ _ _ _ _) same).2 ok
  exact ⟨same, zeroFillers, all parentFirst_sameFillers⟩

/-- A function that takes a single meaning keeps the dear filler where the parent was made first,
and has none where the child was: only the first sentence may leave out the parent. -/
theorem parentFirst_derive_not_sameRules :
    (∀ operation ∈ parentFirst 1, operation.IsPlain) ∧ .derive ∉ parentFirst 1 ∧
      (∀ operation ∈ childFirst 1, operation.IsPlain) ∧ .derive ∉ childFirst 1 ∧
      (run (parentFirst 1)).SameUpToOrder (run (childFirst 1)) ∧
      (∃ tally, (run (parentFirst 1)).derive.2 = .ok tally) ∧
      ¬ (run (parentFirst 1)).derive.1.SameRules (fun _ => True) (run (childFirst 1)).derive.1 := by
  have known : Symbol.start.index < (run (parentFirst 1)).derive.1.size := by decide +kernel
  have single : ∃ rule ∈ (run (parentFirst 1)).derive.1.rulesOf .start,
      rule.side = .phrase [⟨5⟩] := by decide +kernel
  have pairs : ∀ rule ∈ (run (childFirst 1)).derive.1.rulesOf
      ((run (parentFirst 1)).derive.1.counterpart (run (childFirst 1)).derive.1 .start),
      rule.children.length = 2 := by decide +kernel
  refine ⟨arityChain_isPlain _ _ _ _ _, derive_not_mem_arityChain _ _ _ _ _,
    arityChain_isPlain _ _ _ _ _, derive_not_mem_arityChain _ _ _ _ _,
    parentFirst_sameUpToOrder (by decide),
    exists_derive_ok_of_isCollapsed (parentFirst_isCollapsed (by decide)), fun same => ?_⟩
  obtain ⟨rule, mem, side⟩ := single
  have pair := pairs _ ((same .start known _ trivial).mpr ⟨rule, mem, rfl⟩)
  cases rule with
  | word rule => exact nomatch side
  | phrase rule =>
    have symbols : rule.symbols = [⟨5⟩] := Side.phrase.inj side
    change (rule.rename _).symbols.length = 2 at pair
    rw [PhraseRule.symbols_rename, symbols] at pair
    exact absurd pair (by decide : (1 : Nat) ≠ 2)

end Grammar

end PhraseGrammar
