import PhraseGrammar.Proofs.Provenance

/-! The transposition rules that a derivation adds: one for each authored pair that may change its
order, unless its symbol has the other order already, and what each of them says. -/

namespace PhraseGrammar

variable {κ : Type}

namespace PhraseRule

structure IsTransposable (rule : PhraseRule κ) : Prop where
  authored : rule.origin = .authored
  pair : rule.slots.length = 2
  cost : rule.transpositionCost.isSome = true

instance (rule : PhraseRule κ) : Decidable rule.IsTransposable :=
  decidable_of_iff (rule.origin = .authored ∧ rule.slots.length = 2 ∧
    rule.transpositionCost.isSome = true)
    ⟨fun ⟨authored, pair, cost⟩ => ⟨authored, pair, cost⟩, fun h => ⟨h.authored, h.pair, h.cost⟩⟩

/-- A rule has the children of a pair in the other order, at the cost of the change, and declares
nothing that is for authors to declare. -/
structure IsTranspositionOf [Cost κ] (made source : PhraseRule κ) : Prop where
  slots : ∃ first second, source.slots = [first, second] ∧ made.slots = [second, first]
  cost : ∃ cost, source.transpositionCost = some cost ∧ made.cost = source.cost + cost
  meaning : made.meaning = source.meaning
  text : made.text = source.text
  agreement : made.agreement = source.agreement
  unabridged : made.unabridged = source.unabridged
  transpositionCost : made.transpositionCost = none
  insertionCost : made.insertionCost = none
  elided : made.elided = none
  origin : made.origin = .transposition
  ascending : made.requiredPositions.Pairwise (· < ·)
  /-- The same children are required as in the pair. -/
  positions : ∀ position, position ∈ made.requiredPositions ↔
    ∃ old ∈ source.requiredPositions, position + old = 1

variable [Cost κ] {rule source made : PhraseRule κ}

theorem isTransposable_iff :
    rule.IsTransposable ↔ ∃ made, rule.transposition? = some made := by
  constructor
  · intro h
    obtain ⟨first, second, slots⟩ := List.length_eq_two.mp h.pair
    obtain ⟨cost, declared⟩ := Option.isSome_iff_exists.mp h.cost
    exact ⟨_, transposition?_eq_some.mpr
      ⟨h.authored, (first, second), cost, slots, declared, rfl⟩⟩
  · rintro ⟨made, swapped⟩
    obtain ⟨authored, pair, cost, slots, declared, -⟩ := transposition?_eq_some.mp swapped
    exact ⟨authored, slots ▸ rfl, declared ▸ rfl⟩

theorem symbols_of_transposition? (h : rule.transposition? = some made) :
    made.symbols = rule.symbols.reverse := by
  obtain ⟨-, pair, cost, slots, -, rfl⟩ := transposition?_eq_some.mp h
  rw [symbols, symbols, slots]
  rfl

theorem IsTranspositionOf.symbols_eq (h : made.IsTranspositionOf source) :
    made.symbols = source.symbols.reverse := by
  obtain ⟨first, second, old, new⟩ := h.slots
  rw [symbols, symbols, old, new]
  rfl

theorem isTranspositionOf {size : Nat} (sound : source.IsSound size)
    (h : source.transposition? = some made) : made.IsTranspositionOf source := by
  obtain ⟨-, pair, cost, slots, declared, rfl⟩ := transposition?_eq_some.mp h
  have inside : ∀ position ∈ source.requiredPositions, position < 2 := by
    have below := sound.positions
    rwa [slots] at below
  refine ⟨⟨pair.1, pair.2, slots, rfl⟩, ⟨cost, declared, rfl⟩, rfl, rfl, rfl, rfl, rfl, rfl, rfl,
    rfl, ?_, fun position => ?_⟩
  · exact eraseReps_ascending (fun _ _ same => same) (mergeSort_sorted (fun i => i) _)
  · refine mem_remapPositions.trans (exists_congr fun old => and_congr_right fun mem => ?_)
    have low := inside old mem
    rw [Option.some.injEq]
    omega

end PhraseRule

namespace Rule

def Lack (rules : List (Rule κ)) (symbols : List Symbol) : Prop :=
  ∀ rule ∈ rules, rule.side ≠ .phrase symbols

instance (rules : List (Rule κ)) (symbols : List Symbol) : Decidable (Lack rules symbols) :=
  inferInstanceAs (Decidable (∀ rule ∈ rules, rule.side ≠ .phrase symbols))

/-- The pairs among some rules that may change their order and whose other order was not among the
rules before. -/
def oneWay (before rules : List (Rule κ)) : List (PhraseRule κ) :=
  (rules.filterMap phrase?).filter fun rule =>
    rule.IsTransposable ∧ Lack before rule.symbols.reverse

variable {rules before : List (Rule κ)}

theorem mem_oneWay {rule : PhraseRule κ} :
    rule ∈ oneWay before rules ↔
      .phrase rule ∈ rules ∧ rule.IsTransposable ∧ Lack before rule.symbols.reverse := by
  rw [oneWay, List.mem_filter, mem_filterMap_phrase?, decide_eq_true_eq]

theorem Apart.filter_side (apart : Apart rules) {symbols : List Symbol}
    (h : ¬Lack rules symbols) : ∃ rule, rules.filter (·.side = .phrase symbols) = [rule] := by
  simp only [Lack, not_forall, not_not] at h
  obtain ⟨rule, mem, side⟩ := h
  obtain ⟨front, back, rfl⟩ := List.append_of_mem mem
  obtain ⟨-, after, across⟩ := List.pairwise_append.mp apart
  have none : ∀ other ∈ front ++ back, ¬other.side = .phrase symbols := by
    intro other there same
    rcases List.mem_append.mp there with there | there
    · exact across other there rule List.mem_cons_self (same.trans side.symm)
    · exact (List.pairwise_cons.mp after).1 other there (side.trans same.symm)
  refine ⟨rule, ?_⟩
  have past : ∀ others ⊆ front ++ back, others.filter (·.side = .phrase symbols) = [] :=
    fun others part => List.filter_eq_nil_iff.mpr fun other there =>
      mt of_decide_eq_true (none other (part there))
  rw [List.filter_append, List.filter_cons, if_pos (decide_eq_true side),
    past front (List.subset_append_left ..), past back (List.subset_append_right ..),
    List.nil_append]

theorem oneWay_append_transpositions {added : List (PhraseRule κ)}
    (made : ∀ rule ∈ added, rule.origin = .transposition) :
    oneWay before (rules ++ added.map .phrase) = oneWay before rules := by
  have phrases : (added.map Rule.phrase).filterMap phrase? = added := by
    rw [List.filterMap_map]
    exact List.filterMap_some
  have none : added.filter (fun rule => rule.IsTransposable ∧ Lack before rule.symbols.reverse) =
      [] := by
    refine List.filter_eq_nil_iff.mpr fun rule mem => mt of_decide_eq_true fun h => ?_
    exact nomatch h.1.authored.symm.trans (made rule mem)
  rw [oneWay, List.filterMap_append, List.filter_append, phrases, none, List.append_nil, oneWay]

variable [Cost κ]

/-- What is added to the rules of a symbol is, in their order, one transposition for each pair
whose other order was not there before. -/
structure GainsTranspositions (before after : List (Rule κ)) (added : List (PhraseRule κ)) :
    Prop where
  rules : ∃ kept, after = kept ++ added.map .phrase ∧
    ∀ rule ∈ kept, rule.origin = .transposition → rule ∈ before
  fresh : ∀ rule ∈ added, .phrase rule ∉ before
  each : List.Forall₂ PhraseRule.IsTranspositionOf added (oneWay before after)
  /-- None of them is itself to be transposed. -/
  last : ∀ rule ∈ added, ¬rule.IsTransposable

theorem forall₂_transposition? {size : Nat} {pairs : List (PhraseRule κ)}
    (before : List (Rule κ)) (sound : ∀ rule ∈ pairs, rule.IsSound size) :
    List.Forall₂ PhraseRule.IsTranspositionOf
      ((pairs.filterMap PhraseRule.transposition?).filter fun made => Lack before made.symbols)
      (pairs.filter fun rule => rule.IsTransposable ∧ Lack before rule.symbols.reverse) := by
  induction pairs with
  | nil => exact .nil
  | cons rule rest ih =>
    obtain ⟨head, tail⟩ := List.forall_mem_cons.mp sound
    cases swapped : rule.transposition? with
    | none =>
      have fixed : ¬rule.IsTransposable := fun h => by
        obtain ⟨made, same⟩ := PhraseRule.isTransposable_iff.mp h
        exact nomatch swapped.symm.trans same
      rw [List.filterMap_cons_none swapped, List.filter_cons_of_neg]
      · exact ih tail
      · exact mt of_decide_eq_true (not_and.mpr fun h => absurd h fixed)
    | some made =>
      have movable := PhraseRule.isTransposable_iff.mpr ⟨made, swapped⟩
      have symbols := PhraseRule.symbols_of_transposition? swapped
      rw [List.filterMap_cons_some swapped, List.filter_cons, List.filter_cons, ← symbols]
      by_cases free : Lack before made.symbols
      · rw [if_pos (decide_eq_true free), if_pos (decide_eq_true ⟨movable, free⟩)]
        exact .cons (PhraseRule.isTranspositionOf head swapped) (ih tail)
      · rw [if_neg (mt of_decide_eq_true free),
          if_neg (mt of_decide_eq_true (not_and.mpr fun _ => free))]
        exact ih tail

end Rule

namespace Grammar

variable {grammar : Grammar κ} {symbol : Symbol}

theorem filter_flatMap_pairs {α β : Type} [DecidableEq α] {keys : List α} (distinct : keys.Nodup)
    (values : α → List β) (key : α) :
    ((keys.flatMap fun other => (values other).map (other, ·)).filter (·.1 = key)).map (·.2) =
      if key ∈ keys then values key else [] := by
  induction keys with
  | nil => rfl
  | cons first rest ih =>
    obtain ⟨new, distinct⟩ := List.nodup_cons.mp distinct
    rw [List.flatMap_cons, List.filter_append, List.map_append, ih distinct, List.filter_map,
      List.map_map]
    by_cases here : key = first
    · subst here
      have all : (values key).filter ((fun pair : α × β => decide (pair.1 = key)) ∘ (key, ·)) =
          values key := List.filter_eq_self.mpr fun _ _ => decide_eq_true rfl
      rw [all, if_neg new, if_pos List.mem_cons_self, List.append_nil]
      exact List.map_id _
    · have none : (values first).filter ((fun pair : α × β => decide (pair.1 = key)) ∘ (first, ·)) =
          [] := List.filter_eq_nil_iff.mpr fun _ _ => mt of_decide_eq_true (Ne.symm here)
      simp only [none, List.map_nil, List.nil_append, List.mem_cons, here, false_or]

theorem rulesOf_foldl_addAbsent {sources : List (Symbol × PhraseRule κ)}
    {state : Grammar κ × Nat} (known : ∀ source ∈ sources, source.1.index < state.1.size)
    (apart : ((sources.filter (·.1 = symbol)).map (·.2)).Pairwise
      fun a b => a.symbols ≠ b.symbols) :
    (sources.foldl addAbsent state).1.rulesOf symbol = state.1.rulesOf symbol ++
      (((sources.filter (·.1 = symbol)).map (·.2)).filter fun rule =>
        Rule.Lack (state.1.rulesOf symbol) rule.symbols).map .phrase := by
  induction sources generalizing state with
  | nil => exact (List.append_nil _).symm
  | cons source rest ih =>
    obtain ⟨head, tail⟩ := List.forall_mem_cons.mp known
    have later : ∀ other ∈ rest, other.1.index < (addAbsent state source).1.size :=
      size_addAbsent state source ▸ tail
    rw [List.foldl_cons]
    by_cases here : source.1 = symbol
    · subst here
      rw [List.filter_cons, if_pos (decide_eq_true rfl), List.map_cons, List.pairwise_cons] at apart
      rw [List.filter_cons, if_pos (decide_eq_true rfl), List.map_cons, ih later apart.2]
      rcases addAbsent_cases state source with ⟨⟨present, there, side⟩, done⟩ | ⟨fresh, done⟩
      · have taken : ¬Rule.Lack (state.1.rulesOf source.1) source.2.symbols :=
          fun lack => lack present there side
        rw [done, List.filter_cons, if_neg (mt of_decide_eq_true taken)]
      · have same : (addAbsent state source).1.rulesOf source.1 =
            state.1.rulesOf source.1 ++ [.phrase source.2] := by
          rw [done]
          exact rulesOf_setRules_self head _
        have free : Rule.Lack (state.1.rulesOf source.1) source.2.symbols := fresh
        -- The rule that has come in has other children than all later ones.
        have others : ∀ rule ∈ (rest.filter (·.1 = source.1)).map (·.2),
            (Rule.Lack (state.1.rulesOf source.1 ++ [.phrase source.2]) rule.symbols ↔
              Rule.Lack (state.1.rulesOf source.1) rule.symbols) := by
          intro rule mem
          refine ⟨fun lack present there => lack present (List.mem_append_left _ there), ?_⟩
          intro lack present there
          rcases List.mem_append.mp there with there | there
          · exact lack present there
          · obtain rfl := List.mem_singleton.mp there
            exact fun side => apart.1 rule mem (Side.phrase.inj side)
        rw [same, List.filter_congr fun rule mem => decide_eq_decide.mpr (others rule mem),
          List.filter_cons, if_pos (decide_eq_true free), List.map_cons, List.append_assoc]
        rfl
    · have same : (addAbsent state source).1.rulesOf symbol = state.1.rulesOf symbol := by
        rcases addAbsent_cases state source with ⟨-, done⟩ | ⟨-, done⟩
        · rw [done]
        · rw [done]
          exact rulesOf_setRules_of_ne (Ne.symm here) _
      rw [List.filter_cons, if_neg (mt of_decide_eq_true here)] at apart ⊢
      rw [ih later apart, same]

variable [Cost κ]

theorem filter_transpositionOffers (grammar : Grammar κ) (symbol : Symbol) :
    (grammar.transpositionOffers.filter (·.1 = symbol)).map (·.2) =
      ((grammar.rulesOf symbol).filterMap Rule.phrase?).filterMap PhraseRule.transposition? := by
  have offers : grammar.transpositionOffers = grammar.symbols.flatMap fun symbol =>
      (((grammar.rulesOf symbol).filterMap Rule.phrase?).filterMap
        PhraseRule.transposition?).map (symbol, ·) := by
    rw [transpositionOffers, phraseRules, List.filterMap_flatMap]
    refine List.flatMap_congr fun symbol _ => ?_
    simp only [List.filterMap_filterMap, List.map_filterMap, Option.bind_map, Option.map_bind]
    rfl
  rw [offers, filter_flatMap_pairs grammar.nodup_symbols]
  by_cases known : symbol.index < grammar.size
  · exact if_pos (List.mem_map.mpr ⟨_, List.mem_range.mpr known, rfl⟩)
  · rw [rulesOf_of_size_le (Nat.le_of_not_lt known)]
    exact ite_self _

theorem IsSound.rulesOf_transpose (sound : grammar.IsSound) (symbol : Symbol) :
    grammar.transpose.1.rulesOf symbol = grammar.rulesOf symbol ++
      ((((grammar.rulesOf symbol).filterMap Rule.phrase?).filterMap
        PhraseRule.transposition?).filter fun made =>
          Rule.Lack (grammar.rulesOf symbol) made.symbols).map .phrase := by
  have known : ∀ source ∈ grammar.transpositionOffers, source.1.index < (grammar, 0).1.size := by
    intro source mem
    obtain ⟨pair, present, -⟩ := mem_transpositionOffers.mp mem
    exact lt_size_of_mem_rulesOf present
  have phrases : ((grammar.rulesOf symbol).filterMap Rule.phrase?).Pairwise
      fun a b => a.symbols ≠ b.symbols := by
    refine (sound.apart symbol).filterMap _ fun a b apart x hx y hy same => apart ?_
    rw [Rule.eq_phrase_of_phrase? hx, Rule.eq_phrase_of_phrase? hy]
    exact congrArg Side.phrase same
  rw [Grammar.transpose, rulesOf_foldl_addAbsent known, filter_transpositionOffers]
  rw [filter_transpositionOffers]
  refine phrases.filterMap _ fun a b apart x hx y hy same => apart ?_
  rw [PhraseRule.symbols_of_transposition? hx, PhraseRule.symbols_of_transposition? hy] at same
  exact List.reverse_injective same

theorem IsSound.authored_mem_transpose (sound : grammar.IsSound) {rule : PhraseRule κ}
    (authored : rule.origin = .authored) :
    .phrase rule ∈ grammar.transpose.1.rulesOf symbol ↔
      .phrase rule ∈ grammar.rulesOf symbol := by
  refine (mem_rulesOf_transpose sound.apart).trans (or_iff_left ?_)
  rintro ⟨_, same, transposed⟩
  obtain rfl := Rule.phrase.inj same
  exact nomatch authored.symm.trans transposed.origin

theorem IsSound.exists_filter_transpose (sound : grammar.IsSound) {rule : PhraseRule κ}
    (movable : rule.IsTransposable) (mem : .phrase rule ∈ grammar.rulesOf symbol) :
    ∃ other, (grammar.transpose.1.rulesOf symbol).filter
      (·.side = .phrase rule.symbols.reverse) = [other] := by
  refine (sound.transpose.apart symbol).filter_side fun lack => ?_
  have old : Rule.Lack (grammar.rulesOf symbol) rule.symbols.reverse := fun held there =>
    lack held ((mem_rulesOf_transpose sound.apart).mpr (.inl there))
  -- Then the pair itself has brought it in.
  obtain ⟨made, swapped⟩ := PhraseRule.isTransposable_iff.mp movable
  rw [← PhraseRule.symbols_of_transposition? swapped] at lack old
  have new : .phrase made ∈ grammar.transpose.1.rulesOf symbol :=
    (mem_rulesOf_transpose sound.apart).mpr (.inr ⟨made, rfl, ⟨rule, mem, swapped⟩, old⟩)
  exact lack _ new rfl

section Collapsed

variable {left : Grammar κ} {count rounds : Nat} {rule : PhraseRule κ}
  (sound : grammar.IsSound) (collapse : grammar.collapse = (left, .ok count))

include sound collapse

theorem IsSound.old_or_single
    (mem : .phrase rule ∈ (left.afterRounds rounds).rulesOf symbol) :
    .phrase rule ∈ grammar.rulesOf symbol ∨
      rule.slots.length = 1 ∧ rule.origin ≠ .transposition := by
  rcases of_mem_afterRounds mem with there | ⟨_, same, n, -, source, -, inserted⟩
  · obtain ⟨before, old, shrinks⟩ := sound.exists_shrinks_collapse collapse there
    have few := PhraseRule.IsSound.length_le (sound.rule old)
    rcases shrinks.eq_or_remainder few with rfl | ⟨single, _, -, -, -, rfl⟩
    · exact .inl old
    · exact .inr ⟨single, nofun⟩
  · obtain rfl := Rule.phrase.inj same
    obtain ⟨-, -, _, _, _, -, -, rfl⟩ := PhraseRule.insertion?_eq_some.mp inserted
    exact .inr ⟨rfl, nofun⟩

theorem IsSound.transposition_of_mem_afterRounds {held : Rule κ}
    (origin : held.origin = .transposition)
    (mem : held ∈ (left.afterRounds rounds).rulesOf symbol) : held ∈ grammar.rulesOf symbol := by
  cases held with
  | word word => exact nomatch origin
  | phrase rule => exact (sound.old_or_single collapse mem).resolve_right fun made => made.2 origin

theorem IsSound.mem_collapse {held : Rule κ} (mem : held ∈ grammar.rulesOf symbol)
    (clean : held.hasVanishing left.vanishing = false) : held ∈ left.rulesOf symbol := by
  obtain ⟨made, gathers⟩ := sound.gathers_collapse collapse symbol
  rw [gathers.rules, List.mem_append, List.mem_filter]
  exact .inl ⟨mem, congrArg (! ·) clean⟩

theorem IsSound.lack_of_lack_afterRounds {held : Rule κ} (mem : held ∈ grammar.rulesOf symbol)
    (clean : held.hasVanishing left.vanishing = false) {symbols : List Symbol}
    (lack : Rule.Lack ((left.afterRounds rounds).rulesOf symbol) symbols) :
    held.side ≠ .phrase symbols := by
  have lengthened := lengthened_insertionRounds rounds left count
  rw [insertionRounds_fst] at lengthened
  obtain ⟨new, now, becomes⟩ :=
    (lengthened.rules symbol).exists_becomes (sound.mem_collapse collapse mem clean)
  exact becomes.side_eq ▸ lack new now

/-- The other order of a pair that is left is there exactly when it was there before: its children
do not vanish, since those of the pair do not. -/
theorem IsSound.lack_afterRounds_iff (pair : rule.slots.length = 2)
    (clean : rule.hasVanishing left.vanishing = false) :
    Rule.Lack ((left.afterRounds rounds).rulesOf symbol) rule.symbols.reverse ↔
      Rule.Lack (grammar.rulesOf symbol) rule.symbols.reverse := by
  constructor
  · intro lack held mem side
    cases held with
    | word word => cases side
    | phrase other =>
      have same : other.symbols = rule.symbols.reverse := Side.phrase.inj side
      have stays : other.hasVanishing left.vanishing = false := by
        rw [PhraseRule.hasVanishing, same, List.any_reverse]
        exact clean
      exact sound.lack_of_lack_afterRounds collapse mem stays lack side
  · intro lack held mem side
    cases held with
    | word word => cases side
    | phrase other =>
      have same : other.symbols = rule.symbols.reverse := Side.phrase.inj side
      have two : other.slots.length = 2 := by
        have length := congrArg List.length same
        rwa [List.length_reverse, PhraseRule.symbols, PhraseRule.symbols, List.length_map,
          List.length_map, pair] at length
      exact lack _ ((sound.old_or_single collapse mem).resolve_right fun made => by omega) side

theorem IsSound.transposable_mem_afterRounds_iff (movable : rule.IsTransposable) :
    .phrase rule ∈ (left.afterRounds rounds).rulesOf symbol ↔
      .phrase rule ∈ grammar.rulesOf symbol ∧ rule.hasVanishing left.vanishing = false := by
  rw [authored_mem_afterRounds movable.authored]
  constructor
  · intro mem
    exact ⟨sound.authored_of_mem_collapse collapse movable.authored mem,
      isCollapsed_iff.mp (collapse_isCollapsed collapse) symbol _ mem⟩
  · rintro ⟨mem, clean⟩
    exact sound.mem_collapse collapse mem clean

/-- It does not matter for the pairs that are left whether their other order is looked for among the
rules that are left or among those before. -/
theorem IsSound.oneWay_afterRounds :
    Rule.oneWay ((left.afterRounds rounds).rulesOf symbol)
        ((left.afterRounds rounds).rulesOf symbol) =
      Rule.oneWay (grammar.rulesOf symbol) ((left.afterRounds rounds).rulesOf symbol) := by
  refine List.filter_congr fun rule mem => decide_eq_decide.mpr (and_congr_right fun movable => ?_)
  have clean := ((sound.transposable_mem_afterRounds_iff collapse movable).mp
    (Rule.mem_filterMap_phrase?.mp mem)).2
  exact sound.lack_afterRounds_iff collapse movable.pair clean

/-- After some rounds of insertion, transposition adds what it should to the rules of a symbol. -/
theorem IsSound.gainsTranspositions (rounds : Nat) (symbol : Symbol) :
    ∃ added, Rule.GainsTranspositions (grammar.rulesOf symbol)
        ((left.afterRounds rounds).transpose.1.rulesOf symbol) added ∧
      (left.afterRounds rounds).transpose.1.rulesOf symbol =
        (left.afterRounds rounds).rulesOf symbol ++ added.map .phrase := by
  have grown : (left.afterRounds rounds).IsSound :=
    afterRounds_induction .insertionRound (sound.of_collapse collapse) rounds
  have rules := grown.rulesOf_transpose symbol
  have pairs : ∀ rule ∈ ((left.afterRounds rounds).rulesOf symbol).filterMap Rule.phrase?,
      rule.IsSound (left.afterRounds rounds).size :=
    fun rule mem => grown.rule (Rule.mem_filterMap_phrase?.mp mem)
  have each := Rule.forall₂_transposition? ((left.afterRounds rounds).rulesOf symbol) pairs
  generalize ((((left.afterRounds rounds).rulesOf symbol).filterMap
    Rule.phrase?).filterMap PhraseRule.transposition?).filter (fun made =>
      Rule.Lack ((left.afterRounds rounds).rulesOf symbol) made.symbols) = added at rules each
  have made : ∀ rule ∈ added, rule.origin = .transposition := fun rule mem => by
    obtain ⟨source, -, comes⟩ := exists_of_mem_left each mem
    exact comes.origin
  replace each : List.Forall₂ PhraseRule.IsTranspositionOf added
      (Rule.oneWay (grammar.rulesOf symbol) ((left.afterRounds rounds).rulesOf symbol)) :=
    sound.oneWay_afterRounds collapse ▸ each
  refine ⟨added, ⟨⟨_, rules, fun held mem origin =>
    sound.transposition_of_mem_afterRounds collapse origin mem⟩, ?_, ?_, ?_⟩, rules⟩
  · intro rule mem there
    obtain ⟨source, pair, comes⟩ := exists_of_mem_left each mem
    exact (Rule.mem_oneWay.mp pair).2.2 _ there (congrArg Side.phrase comes.symbols_eq)
  · rw [rules, Rule.oneWay_append_transpositions made]
    exact each
  · intro rule mem movable
    exact nomatch movable.authored.symm.trans (made rule mem)

theorem IsSound.sum_oneWay :
    ((left.afterRounds rounds).symbols.map fun symbol =>
      (Rule.oneWay (grammar.rulesOf symbol)
        ((left.afterRounds rounds).transpose.1.rulesOf symbol)).length).sum =
      (left.afterRounds rounds).transpose.2 := by
  have appended := appended_transpose (left.afterRounds rounds)
  refine sum_of_ruleCount (size_eq_of_bare appended.bare) (fun symbol => ?_) appended.count
  obtain ⟨added, gains, rules⟩ := sound.gainsTranspositions collapse rounds symbol
  rw [← gains.each.length_eq, rules, List.length_append, List.length_map]

omit sound in
theorem transpositions_of_derive {derived : Grammar κ} {tally : Tally}
    (h : grammar.derive = (derived, .ok tally)) :
    tally.transpositions = (left.afterRounds (left.size + 1)).transpose.2 := by
  rcases derive_eq grammar with ⟨_, _, refused, -⟩ | ⟨other, counted, same, done⟩
  · exact nomatch (Prod.mk.inj (collapse.symm.trans refused)).2
  · obtain ⟨rfl, -⟩ := Prod.mk.inj (collapse.symm.trans same)
    rw [done] at h
    rw [← Except.ok.inj (Prod.mk.inj h).2, insertionRounds_fst]

end Collapsed

/-- After every run, and a derivation that is not refused: each authored pair with a cost for the
change of its order is left as it is unless a child of it vanishes. Where it is left, no position
but its two is required, and its other order is there exactly once. The transposition rules that are
added are one for each pair whose other order was not there, and they are counted. -/
theorem run_derive_transposes {operations : List (Operation κ)} {derived : Grammar κ}
    {tally : Tally} (h : (run operations).derive = (derived, .ok tally)) :
    (∀ symbol (rule : PhraseRule κ), rule.IsTransposable →
      ((.phrase rule ∈ derived.rulesOf symbol ↔
        .phrase rule ∈ (run operations).rulesOf symbol ∧
          rule.hasVanishing derived.vanishing = false) ∧
      (.phrase rule ∈ derived.rulesOf symbol →
        (∀ position ∈ rule.requiredPositions, position < 2) ∧
        ∃ other, (derived.rulesOf symbol).filter (·.side = .phrase rule.symbols.reverse) =
          [other]))) ∧
    (∀ symbol, ∃ added, Rule.GainsTranspositions ((run operations).rulesOf symbol)
      (derived.rulesOf symbol) added) ∧
    ((run operations).symbols.map fun symbol =>
      (Rule.oneWay ((run operations).rulesOf symbol) (derived.rulesOf symbol)).length).sum =
        tally.transpositions := by
  have sound := IsSound.run (κ := κ) operations
  generalize run operations = grammar at h sound ⊢
  obtain ⟨left, count, collapse, -, vanishing, -⟩ := of_derive_ok h
  have grown : (left.afterRounds (left.size + 1)).IsSound :=
    afterRounds_induction .insertionRound (sound.of_collapse collapse) _
  obtain rfl : (left.afterRounds (left.size + 1)).transpose.1 = derived :=
    (derive_fst collapse).symm.trans (congrArg Prod.fst h)
  have kept : ∀ symbol (rule : PhraseRule κ), rule.IsTransposable →
      (.phrase rule ∈ (left.afterRounds (left.size + 1)).transpose.1.rulesOf symbol ↔
        .phrase rule ∈ (left.afterRounds (left.size + 1)).rulesOf symbol) :=
    fun symbol rule movable => grown.authored_mem_transpose movable.authored
  refine ⟨fun symbol rule movable => ⟨?_, fun mem => ⟨?_, ?_⟩⟩, fun symbol => ?_, ?_⟩
  · rw [kept symbol rule movable, vanishing]
    exact sound.transposable_mem_afterRounds_iff collapse movable
  · have below := (grown.transpose.rule mem).positions
    rwa [movable.pair] at below
  · exact grown.exists_filter_transpose movable ((kept symbol rule movable).mp mem)
  · obtain ⟨added, gains, -⟩ := sound.gainsTranspositions collapse _ symbol
    exact ⟨added, gains⟩
  · have size : (left.afterRounds (left.size + 1)).transpose.1.size = _ :=
      size_eq_of_bare bare_transpose
    have names := (derive_names grammar).1
    rw [h, size] at names
    rw [transpositions_of_derive collapse h, ← sound.sum_oneWay collapse, symbols, symbols, names]

/-- An order and a courtesy may change places. Of other phrases both orders are there already, one
pair has twice the same child, and one has a child that vanishes. -/
def eitherOrder : List (Operation Float) :=
  [.newSymbol ["courtesy"], .newSymbol ["order"], .newSymbol ["phrase"],
    .addRule ⟨2⟩ (.word (.ofLiteral "please")), .addRule ⟨3⟩ (.word (.ofLiteral "go")),
    .addRule .start (.phrase { PhraseRule.ofSymbols [⟨2⟩, ⟨3⟩] with
      transpositionCost := some 1, requiredPositions := [1] }),
    .addRule ⟨4⟩ (.phrase { PhraseRule.ofSymbols [⟨2⟩, ⟨3⟩] with transpositionCost := some 1 }),
    .addRule ⟨4⟩ (.phrase { PhraseRule.ofSymbols [⟨3⟩, ⟨2⟩] with transpositionCost := some 2 }),
    .addRule ⟨4⟩ (.phrase { PhraseRule.ofSymbols [⟨2⟩, ⟨2⟩] with transpositionCost := some 1 }),
    .addRule ⟨4⟩ (.phrase { PhraseRule.ofSymbols [.empty, ⟨3⟩] with transpositionCost := some 1 })]

def courtesyFirst : PhraseRule Float :=
  { PhraseRule.ofSymbols [⟨2⟩, ⟨3⟩] with transpositionCost := some 1, requiredPositions := [1] }

/-- Only under the start symbol the other order is missing. -/
theorem eitherOrder_transposes :
    (run eitherOrder).derive.2 = .ok ⟨1, 0, 0, 1, 1, true⟩ ∧
      (courtesyFirst.IsTransposable ∧
        .phrase courtesyFirst ∈ (run eitherOrder).derive.1.rulesOf .start ∧
        (∀ position ∈ courtesyFirst.requiredPositions, position < 2) ∧
        ∃ other, ((run eitherOrder).derive.1.rulesOf .start).filter
          (·.side = .phrase courtesyFirst.symbols.reverse) = [other]) ∧
      (∃ made, Rule.GainsTranspositions ((run eitherOrder).rulesOf .start)
        ((run eitherOrder).derive.1.rulesOf .start) [made]) ∧
      Rule.GainsTranspositions ((run eitherOrder).rulesOf ⟨4⟩)
        ((run eitherOrder).derive.1.rulesOf ⟨4⟩) [] ∧
      ((run eitherOrder).symbols.map fun symbol =>
        (Rule.oneWay ((run eitherOrder).rulesOf symbol)
          ((run eitherOrder).derive.1.rulesOf symbol)).length).sum = 1 := by
  have tally : (run eitherOrder).derive.2 = .ok ⟨1, 0, 0, 1, 1, true⟩ := by decide +kernel
  have derived : (run eitherOrder).derive =
      ((run eitherOrder).derive.1, .ok ⟨1, 0, 0, 1, 1, true⟩) :=
    Prod.mk.eta.symm.trans (congrArg (Prod.mk _) tally)
  have movable : courtesyFirst.IsTransposable := ⟨rfl, rfl, rfl⟩
  have there : .phrase courtesyFirst ∈ (run eitherOrder).derive.1.rulesOf .start := by
    decide +kernel
  have one : (Rule.oneWay ((run eitherOrder).rulesOf .start)
      ((run eitherOrder).derive.1.rulesOf .start)).length = 1 := by decide +kernel
  have none : (Rule.oneWay ((run eitherOrder).rulesOf ⟨4⟩)
      ((run eitherOrder).derive.1.rulesOf ⟨4⟩)).length = 0 := by decide +kernel
  obtain ⟨pairs, gains, counted⟩ := run_derive_transposes derived
  obtain ⟨inside, other⟩ := (pairs .start courtesyFirst movable).2 there
  obtain ⟨added, start⟩ := gains .start
  obtain ⟨made, rfl⟩ := List.length_eq_one_iff.mp (start.each.length_eq.trans one)
  obtain ⟨rest, phrase⟩ := gains ⟨4⟩
  obtain rfl := List.length_eq_zero_iff.mp (phrase.each.length_eq.trans none)
  exact ⟨tally, ⟨movable, there, inside, other⟩, ⟨made, start⟩, phrase, counted⟩

end Grammar

end PhraseGrammar
