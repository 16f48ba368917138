import PhraseGrammar.Cost.Float
import PhraseGrammar.Proofs.Synthesis

/-! Derivation is done once: where its last round of insertion changed nothing, a second derivation
finds nothing to collapse, to insert or to transpose. -/

namespace PhraseGrammar

variable {κ : Type}

namespace Grammar

def Changes.total (changes : Changes) : Nat := changes.added + changes.replaced

variable [Cost κ] {grammar grown : Grammar κ}

/-- The symbol of an offered rule has a rule at least as good. -/
def Declines (grammar : Grammar κ) (source : Symbol × PhraseRule κ) : Prop :=
  offerRule grammar.nameOf source.2 (grammar.rulesOf source.1) =
    (grammar.rulesOf source.1, .declined)

theorem Declines.offer_eq {source : Symbol × PhraseRule κ} (h : grammar.Declines source)
    (changes : Changes) : offer (grammar, changes) source = (grammar, changes) := by
  have same : (offer (grammar, changes) source).1 = grammar := by
    rw [offer_fst, h, setRules_rulesOf]
  have outcome : (offer (grammar, changes) source).2 = changes := by
    change changes.record (offerRule grammar.nameOf source.2 (grammar.rulesOf source.1)).2 = changes
    rw [h]
    rfl
  exact Prod.ext same outcome

theorem declines_or_total_lt (state : Grammar κ × Changes) (source : Symbol × PhraseRule κ) :
    state.1.Declines source ∨ state.2.total < (offer state source).2.total := by
  have record : (offer state source).2 = state.2.record
    (offerRule state.1.nameOf source.2 (state.1.rulesOf source.1)).2 := rfl
  rcases offerRule_cases state.1.nameOf source.2 (state.1.rulesOf source.1) with
    ⟨-, done⟩ | ⟨before, present, after, -, -, -, -, done⟩ | ⟨-, done⟩
  · right
    rw [record, done]
    simp only [Changes.record, Changes.total]
    omega
  · right
    rw [record, done]
    simp only [Changes.record, Changes.total]
    omega
  · exact .inl done

theorem total_le_foldl (sources : List (Symbol × PhraseRule κ)) (state : Grammar κ × Changes) :
    state.2.total ≤ (sources.foldl offer state).2.total := by
  induction sources generalizing state with
  | nil => exact Nat.le_refl _
  | cons source rest ih =>
    rw [List.foldl_cons]
    have later := ih (offer state source)
    rcases declines_or_total_lt state source with declines | more
    · rw [declines.offer_eq] at later ⊢
      exact later
    · omega

theorem foldl_offer_of_declines {sources : List (Symbol × PhraseRule κ)}
    (h : ∀ source ∈ sources, grammar.Declines source) (changes : Changes) :
    sources.foldl offer (grammar, changes) = (grammar, changes) := by
  induction sources with
  | nil => rfl
  | cons source rest ih =>
    obtain ⟨head, tail⟩ := List.forall_mem_cons.mp h
    rw [List.foldl_cons, head.offer_eq, ih tail]

theorem declines_of_total_eq {sources : List (Symbol × PhraseRule κ)} {changes : Changes}
    (h : (sources.foldl offer (grammar, changes)).2.total = changes.total) :
    ∀ source ∈ sources, grammar.Declines source := by
  induction sources with
  | nil => exact fun _ mem => absurd mem List.not_mem_nil
  | cons source rest ih =>
    rw [List.foldl_cons] at h
    rcases declines_or_total_lt (grammar, changes) source with declines | more
    · rw [declines.offer_eq] at h
      exact List.forall_mem_cons.mpr ⟨declines, ih h⟩
    · have later := total_le_foldl rest (offer (grammar, changes) source)
      have less : changes.total < (offer (grammar, changes) source).2.total := more
      omega

theorem insertionRound_eq_iff :
    grammar.insertionRound.2 = .none ↔
      ∀ source ∈ grammar.insertionOffers grammar.fillers, grammar.Declines source := by
  constructor
  · intro h
    have same : ((grammar.insertionOffers grammar.fillers).foldl offer (grammar, .none)).2.total =
        Changes.none.total := congrArg Changes.total h
    exact declines_of_total_eq same
  · intro h
    have same : grammar.insertionRound = (grammar, .none) := foldl_offer_of_declines h .none
    rw [same]

theorem insertionRound_of_none (h : grammar.insertionRound.2 = .none) :
    grammar.insertionRound = (grammar, .none) :=
  foldl_offer_of_declines (insertionRound_eq_iff.mp h) .none

theorem insertionRounds_settled {rounds : Nat} {tally last : Tally}
    (h : insertionRounds rounds grammar tally = (grown, last)) (unsettled : tally.settled = false)
    (settled : last.settled = true) : grown.insertionRound.2 = .none := by
  induction rounds generalizing grammar tally with
  | zero =>
    obtain ⟨-, rfl⟩ := Prod.mk.inj h
    exact absurd (unsettled.symm.trans settled) Bool.false_ne_true
  | succ rounds ih =>
    rw [insertionRounds_succ] at h
    by_cases now : (tally.recordRound grammar.insertionRound.2).settled = true
    · rw [if_pos now] at h
      have none : grammar.insertionRound.2 = .none := of_decide_eq_true now
      obtain ⟨rfl, -⟩ := Prod.mk.inj h
      rw [insertionRound_of_none none]
      exact none
    · rw [if_neg now] at h
      exact ih h (Bool.not_eq_true _ ▸ now)

omit [Cost κ] in
theorem filterMap_append_phrases {α : Type} {f : Rule κ → Option α}
    (past : ∀ rule, f (.phrase rule) = none) (rules : List (Rule κ))
    (more : List (PhraseRule κ)) :
    (rules ++ more.map Rule.phrase).filterMap f = rules.filterMap f := by
  have none : (more.map Rule.phrase).filterMap f = [] := by
    induction more with
    | nil => rfl
    | cons rule rest ih => rw [List.map_cons, List.filterMap_cons_none (past rule), ih]
  rw [List.filterMap_append, none, List.append_nil]

structure Transposes (grammar grown : Grammar κ) : Prop where
  bare : grown.bare = grammar.bare
  rules : ∀ symbol, ∃ more : List (PhraseRule κ), (∀ rule ∈ more, rule.origin = .transposition) ∧
    grown.rulesOf symbol = grammar.rulesOf symbol ++ more.map .phrase

omit [Cost κ] in
theorem Transposes.refl (grammar : Grammar κ) : grammar.Transposes grammar where
  bare := rfl
  rules _ := ⟨[], fun _ mem => absurd mem List.not_mem_nil, (List.append_nil _).symm⟩

omit [Cost κ] in
theorem Transposes.append (h : grammar.Transposes grown) {symbol : Symbol} {rule : PhraseRule κ}
    (origin : rule.origin = .transposition) :
    grammar.Transposes (grown.setRules symbol (grown.rulesOf symbol ++ [.phrase rule])) where
  bare := (bare_setRules grown symbol _).trans h.bare
  rules other := by
    obtain ⟨more, origins, rules⟩ := h.rules other
    by_cases here : other = symbol
    · subst here
      by_cases known : other.index < grown.size
      · refine ⟨more ++ [rule], ?_, ?_⟩
        · intro added mem
          rcases List.mem_append.mp mem with mem | mem
          · exact origins added mem
          · exact List.mem_singleton.mp mem ▸ origin
        · rw [rulesOf_setRules_self known, rules, List.map_append, List.append_assoc]
          rfl
      · have none : ∀ rules, (grown.setRules other rules).rulesOf other = grown.rulesOf other := by
          intro rules
          rw [rulesOf_of_size_le (by rw [setRules, size_update]; exact Nat.le_of_not_lt known),
            rulesOf_of_size_le (Nat.le_of_not_lt known)]
        exact ⟨more, origins, (none _).trans rules⟩
    · exact ⟨more, origins, (rulesOf_setRules_of_ne here _).trans rules⟩

theorem transposes_transpose (grammar : Grammar κ) : grammar.Transposes grammar.transpose.1 := by
  refine List.foldlRecOn (motive := fun state : Grammar κ × Nat => grammar.Transposes state.1)
    _ addAbsent (.refl grammar) fun state held source mem => ?_
  obtain ⟨rule, -, made⟩ := mem_transpositionOffers.mp mem
  obtain ⟨-, pair, cost, -, -, same⟩ := PhraseRule.transposition?_eq_some.mp made
  rcases addAbsent_cases state source with ⟨-, done⟩ | ⟨-, done⟩
  · rw [done]
    exact held
  · rw [done]
    exact held.append (same ▸ rfl)

namespace Transposes

variable (h : grammar.Transposes grown)

include h

omit [Cost κ] in
theorem symbols_eq : grown.symbols = grammar.symbols := by
  rw [symbols, symbols, size_eq_of_bare h.bare]

theorem seeds_eq : grown.seeds = grammar.seeds := by
  unfold seeds
  ext1 index
  simp only [List.getElem?_map, List.getElem?_zipIdx]
  cases found : grammar.entries[index]? with
  | none =>
    have outside : grown.entries[index]? = none := by
      rw [List.getElem?_eq_none_iff] at found ⊢
      exact Nat.le_trans (Nat.le_of_eq (size_eq_of_bare h.bare)) found
    rw [outside]
  | some entry =>
    have here : grown.entries[index]? = some { entry with rules := grown.rulesOf ⟨index⟩ } :=
      entryOf?_of_bare h.bare found
    obtain ⟨more, -, rules⟩ := h.rules ⟨index⟩
    have old : grammar.rulesOf ⟨index⟩ = entry.rules := rulesOf_eq found
    rw [rules, old] at here
    rw [here]
    simp only [Option.map_some, Entry.seed]
    rw [filterMap_append_phrases]
    intro rule
    rfl

omit [Cost κ] in
theorem fillingRules_eq : grown.fillingRules = grammar.fillingRules := by
  unfold fillingRules phraseRules
  rw [h.symbols_eq, List.filter_flatMap, List.filter_flatMap]
  refine List.flatMap_congr fun symbol _ => ?_
  obtain ⟨more, origins, rules⟩ := h.rules symbol
  rw [rules, List.filterMap_append, List.filter_append]
  have transposed : ∀ source ∈
      (more.map Rule.phrase).filterMap fun rule => rule.phrase?.map (symbol, ·),
      source.2.origin = .transposition := by
    intro source mem
    obtain ⟨rule, there, same⟩ := List.mem_filterMap.mp mem
    obtain ⟨phrase, added, rfl⟩ := List.mem_map.mp there
    obtain rfl := Option.some.inj same
    exact origins phrase added
  refine (congrArg _ (List.filter_eq_nil_iff.mpr fun source mem => ?_)).trans (List.append_nil _)
  simp only [transposed source mem, ne_eq, not_true, decide_false, Bool.false_eq_true,
    not_false_eq_true]

theorem spread_eq : grown.spread = grammar.spread := by
  funext best
  have through : grown.spreadThrough = grammar.spreadThrough := by
    have item : grown.item? = grammar.item? := funext (item?_eq_of_bare h.bare)
    funext state source
    unfold spreadThrough
    rw [signatures_eq_of_bare h.bare, item]
  rw [spread, spread, h.fillingRules_eq, through]

theorem fillers_eq : grown.fillers = grammar.fillers := by
  have settle : ∀ passes best, grown.settle passes best = grammar.settle passes best := by
    intro passes
    induction passes with
    | zero => exact fun _ => rfl
    | succ passes ih =>
      intro best
      simp only [Grammar.settle, h.spread_eq, ih]
  rw [fillers, fillers, size_eq_of_bare h.bare, h.seeds_eq, settle]

omit h [Cost κ] in
/-- What looks past transposition rules can be read off the filling rules. -/
theorem filterMap_phraseRules {α : Type} (grammar : Grammar κ)
    {f : Symbol × PhraseRule κ → Option α}
    (past : ∀ source, source.2.origin = .transposition → f source = none) :
    grammar.phraseRules.filterMap f = grammar.fillingRules.filterMap f := by
  unfold fillingRules
  rw [List.filterMap_filter]
  refine List.filterMap_congr fun source _ => ?_
  by_cases origin : source.2.origin = .transposition
  · simp only [origin, past source origin, ne_eq, not_true, decide_false, Bool.false_eq_true,
      if_false]
  · simp only [origin, ne_eq, not_false_eq_true, decide_true, if_true]

theorem insertionOffers_eq (best : Fillers κ) :
    grown.insertionOffers best = grammar.insertionOffers best := by
  have past : ∀ source : Symbol × PhraseRule κ, source.2.origin = .transposition →
      (source.2.insertion? best).map (source.1, ·) = none := by
    intro source origin
    simp only [PhraseRule.insertion?, origin, reduceCtorEq, false_and, if_false, Option.map_none]
  have nameOf : grown.nameOf = grammar.nameOf := funext (nameOf_eq_of_bare h.bare)
  simp only [insertionOffers, filterMap_phraseRules _ past, h.fillingRules_eq, nameOf]

theorem transpositionOffers_eq : grown.transpositionOffers = grammar.transpositionOffers := by
  have past : ∀ source : Symbol × PhraseRule κ, source.2.origin = .transposition →
      source.2.transposition?.map (source.1, ·) = none := by
    intro source origin
    simp only [PhraseRule.transposition?, origin, reduceCtorEq, if_false, Option.map_none]
  simp only [transpositionOffers, filterMap_phraseRules _ past, h.fillingRules_eq]

/-- What is declined is declined also when transposition rules come last. -/
theorem declines {source : Symbol × PhraseRule κ} (declines : grammar.Declines source) :
    grown.Declines source := by
  have nameOf : grown.nameOf = grammar.nameOf := funext (nameOf_eq_of_bare h.bare)
  obtain ⟨more, -, rules⟩ := h.rules source.1
  unfold Declines at declines ⊢
  rw [nameOf, rules]
  generalize grammar.rulesOf source.1 = present at declines
  induction present with
  | nil => cases declines
  | cons first rest ih =>
    rw [offerRule] at declines
    rw [List.cons_append, offerRule]
    by_cases same : first.side = .phrase source.2.symbols
    · rw [if_pos same] at declines ⊢
      by_cases better : source.2.supersedes grammar.nameOf first = true
      · rw [if_pos better] at declines
        cases declines
      · rw [if_neg better]
    · rw [if_neg same] at declines ⊢
      obtain ⟨rules, outcome⟩ := Prod.mk.inj declines
      rw [ih (Prod.ext (List.cons.inj rules).2 outcome)]

end Transposes

omit [Cost κ] in
def HasSide (grammar : Grammar κ) (source : Symbol × PhraseRule κ) : Prop :=
  ∃ present ∈ grammar.rulesOf source.1, present.side = .phrase source.2.symbols

omit [Cost κ] in
theorem HasSide.addAbsent {state : Grammar κ × Nat} {source other : Symbol × PhraseRule κ}
    (h : state.1.HasSide source) (known : other.1.index < state.1.size) :
    (addAbsent state other).1.HasSide source := by
  rcases addAbsent_cases state other with ⟨-, done⟩ | ⟨-, done⟩
  · rw [done]
    exact h
  · obtain ⟨present, mem, side⟩ := h
    rw [done]
    exact ⟨present, (mem_rulesOf_append known).mpr (.inl mem), side⟩

omit [Cost κ] in
theorem hasSide_addAbsent {state : Grammar κ × Nat} {source : Symbol × PhraseRule κ}
    (known : source.1.index < state.1.size) : (addAbsent state source).1.HasSide source := by
  rcases addAbsent_cases state source with ⟨present, done⟩ | ⟨-, done⟩
  · rw [done]
    exact present
  · rw [done]
    exact ⟨.phrase source.2, (mem_rulesOf_append known).mpr (.inr ⟨rfl, rfl⟩), rfl⟩

omit [Cost κ] in
theorem size_addAbsent (state : Grammar κ × Nat) (source : Symbol × PhraseRule κ) :
    (addAbsent state source).1.size = state.1.size := by
  rcases addAbsent_cases state source with ⟨-, done⟩ | ⟨-, done⟩
  · rw [done]
  · rw [done]
    exact size_update ..

omit [Cost κ] in
theorem hasSide_foldl {sources : List (Symbol × PhraseRule κ)} {state : Grammar κ × Nat}
    (known : ∀ source ∈ sources, source.1.index < state.1.size) :
    ∀ source ∈ sources, (sources.foldl addAbsent state).1.HasSide source := by
  induction sources generalizing state with
  | nil => exact fun _ mem => absurd mem List.not_mem_nil
  | cons first rest ih =>
    obtain ⟨head, tail⟩ := List.forall_mem_cons.mp known
    rw [List.foldl_cons]
    refine List.forall_mem_cons.mpr ⟨?_, ih ?_⟩
    · have here : (addAbsent state first).1.HasSide first ∧
          (addAbsent state first).1.size = state.1.size :=
        ⟨hasSide_addAbsent head, size_addAbsent state first⟩
      refine (List.foldlRecOn (motive := fun grown : Grammar κ × Nat =>
        grown.1.HasSide first ∧ grown.1.size = state.1.size) rest addAbsent here ?_).1
      intro grown held other mem
      exact ⟨held.1.addAbsent (held.2 ▸ tail other mem),
        (size_addAbsent grown other).trans held.2⟩
    · intro source mem
      rw [size_addAbsent]
      exact tail source mem

omit [Cost κ] in
theorem foldl_addAbsent_of_hasSide {sources : List (Symbol × PhraseRule κ)}
    (h : ∀ source ∈ sources, grammar.HasSide source) (count : Nat) :
    sources.foldl addAbsent (grammar, count) = (grammar, count) := by
  induction sources with
  | nil => rfl
  | cons source rest ih =>
    obtain ⟨head, tail⟩ := List.forall_mem_cons.mp h
    rcases addAbsent_cases (grammar, count) source with ⟨-, done⟩ | ⟨fresh, -⟩
    · rw [List.foldl_cons, done, ih tail]
    · obtain ⟨present, mem, side⟩ := head
      exact absurd side (fresh present mem)

theorem transpose_transpose (grammar : Grammar κ) :
    grammar.transpose.1.transpose = (grammar.transpose.1, 0) := by
  have offers := (transposes_transpose grammar).transpositionOffers_eq
  have known : ∀ source ∈ grammar.transpositionOffers, source.1.index < grammar.size := by
    intro source mem
    obtain ⟨rule, present, -⟩ := mem_transpositionOffers.mp mem
    exact lt_size_of_mem_rulesOf present
  have present : ∀ source ∈ grammar.transpositionOffers, grammar.transpose.1.HasSide source :=
    hasSide_foldl known
  rw [transpose, offers]
  exact foldl_addAbsent_of_hasSide present 0

structure SameEmpty (grammar grown : Grammar κ) : Prop where
  bare : grown.bare = grammar.bare
  rules : ∀ symbol, grown.rulesOf symbol = [] ↔ grammar.rulesOf symbol = []

omit [Cost κ] in
theorem SameEmpty.setRules (h : grammar.SameEmpty grown) {symbol : Symbol} {rules : List (Rule κ)}
    (some : grammar.rulesOf symbol ≠ []) (nonempty : rules ≠ []) :
    grammar.SameEmpty (grown.setRules symbol rules) where
  bare := (bare_setRules grown symbol _).trans h.bare
  rules other := by
    by_cases here : other = symbol
    · subst here
      have known : other.index < grown.size := by
        obtain ⟨rule, mem⟩ := List.exists_mem_of_ne_nil _ (mt (h.rules other).mp some)
        exact lt_size_of_mem_rulesOf mem
      rw [rulesOf_setRules_self known]
      exact ⟨fun none => absurd none nonempty, fun none => absurd none some⟩
    · rw [rulesOf_setRules_of_ne here]
      exact h.rules other

theorem SameEmpty.vanishing_eq (h : grammar.SameEmpty grown) :
    grown.vanishing = grammar.vanishing := by
  have only : ∀ symbol, grown.matchesOnlyEmpty symbol = grammar.matchesOnlyEmpty symbol := by
    intro symbol
    have rules : (grown.rulesOf symbol).isEmpty = (grammar.rulesOf symbol).isEmpty := by
      rw [Bool.eq_iff_iff, List.isEmpty_iff, List.isEmpty_iff]
      exact h.rules symbol
    rw [matchesOnlyEmpty, matchesOnlyEmpty, zeroFiller?_eq_of_bare h.bare, rules]
  have filler : grown.zeroFiller? = grammar.zeroFiller? := funext (zeroFiller?_eq_of_bare h.bare)
  simp only [vanishing, symbols, size_eq_of_bare h.bare, only, filler]

theorem sameEmpty_insertionRound (grammar : Grammar κ) :
    grammar.SameEmpty grammar.insertionRound.1 := by
  refine List.foldlRecOn (motive := fun state : Grammar κ × Changes => grammar.SameEmpty state.1)
    _ offer ⟨rfl, fun _ => .rfl⟩ fun state held source mem => ?_
  obtain ⟨rule, present, -⟩ := mem_insertionOffers.mp mem
  have some : grammar.rulesOf source.1 ≠ [] := List.ne_nil_of_mem present
  rw [offer_fst]
  refine held.setRules some ?_
  rcases offerRule_cases state.1.nameOf source.2 (state.1.rulesOf source.1) with
    ⟨-, done⟩ | ⟨before, present, after, -, -, -, -, done⟩ | ⟨-, done⟩
  · rw [done]
    simp only [ne_eq, List.append_eq_nil_iff, List.cons_ne_nil, and_false, not_false_eq_true]
  · rw [done]
    simp only [ne_eq, List.append_eq_nil_iff, List.cons_ne_nil, and_false, not_false_eq_true]
  · rw [done]
    exact mt (held.rules source.1).mp some

theorem sameEmpty_transpose (grammar : Grammar κ) : grammar.SameEmpty grammar.transpose.1 := by
  refine List.foldlRecOn (motive := fun state : Grammar κ × Nat => grammar.SameEmpty state.1)
    _ addAbsent ⟨rfl, fun _ => .rfl⟩ fun state held source mem => ?_
  obtain ⟨rule, present, -⟩ := mem_transpositionOffers.mp mem
  rcases addAbsent_cases state source with ⟨-, done⟩ | ⟨-, done⟩
  · rw [done]
    exact held
  · rw [done]
    refine held.setRules (List.ne_nil_of_mem present) ?_
    simp only [ne_eq, List.append_eq_nil_iff, List.cons_ne_nil, and_false, not_false_eq_true]

theorem isCollapsed_iff :
    grammar.IsCollapsed ↔
      grammar.AllRules fun rule => rule.hasVanishing grammar.vanishing = false := by
  have affected : ∀ entry : Entry κ, entry.affected grammar.vanishing = [] ↔
      ∀ rule ∈ entry.rules, rule.hasVanishing grammar.vanishing = false := by
    intro entry
    rw [List.eq_nil_iff_forall_not_mem]
    simp only [Entry.mem_affected, not_and, Bool.not_eq_true]
    constructor
    · intro h rule mem
      cases rule with
      | word word => rfl
      | phrase rule => exact h rule mem
    · exact fun h rule mem => h (.phrase rule) mem
  simp only [IsCollapsed, allRules_iff, affected]

omit [Cost κ] in
theorem hasVanishing_of_pair {vanishing : Fillers κ} {rule made : PhraseRule κ}
    (h : rule.hasVanishing vanishing = false) (children : ∀ slot ∈ made.slots,
      ∃ old ∈ rule.slots, old.symbol = slot.symbol) : made.hasVanishing vanishing = false := by
  rw [← Bool.not_eq_true, PhraseRule.hasVanishing_iff] at h ⊢
  rintro ⟨slot, mem, vanishes⟩
  obtain ⟨old, there, same⟩ := children slot mem
  exact h ⟨old, there, same ▸ vanishes⟩

theorem IsCollapsed.insertionRound (h : grammar.IsCollapsed) :
    grammar.insertionRound.1.IsCollapsed := by
  rw [isCollapsed_iff] at h ⊢
  rw [(sameEmpty_insertionRound grammar).vanishing_eq]
  refine AllRules.insertionRound h fun {rule pair} place filler old _ slots => ?_
  refine hasVanishing_of_pair old fun slot mem => ?_
  obtain rfl := List.mem_singleton.mp mem
  rw [slots]
  cases place with
  | first => exact ⟨pair.2, List.mem_cons_of_mem _ (List.mem_singleton_self _), rfl⟩
  | second => exact ⟨pair.1, List.mem_cons_self, rfl⟩

theorem IsCollapsed.transpose (h : grammar.IsCollapsed) : grammar.transpose.1.IsCollapsed := by
  rw [isCollapsed_iff] at h ⊢
  rw [(sameEmpty_transpose grammar).vanishing_eq]
  refine AllRules.transpose h fun {rule pair} cost old _ slots => ?_
  refine hasVanishing_of_pair old fun slot mem => ⟨slot, ?_, rfl⟩
  rw [slots]
  have swapped : slot ∈ [pair.2, pair.1] := mem
  rw [List.mem_pair] at swapped ⊢
  exact swapped.symm

/-- Where nothing is left to collapse or to insert, derivation only transposes. -/
theorem derive_of_settled (collapsed : grammar.IsCollapsed)
    (insertion : grammar.insertionRound.2 = .none) :
    grammar.derive =
      (grammar.transpose.1, .ok ⟨0, 0, 0, grammar.transpose.2, 1, true⟩) := by
  have collapse := collapse_of_isCollapsed collapsed
  have rounds : insertionRounds (grammar.size + 1) grammar (.ofCollapsed 0) =
      (grammar, ⟨0, 0, 0, 0, 1, true⟩) := by
    rw [insertionRounds_succ, insertionRound_of_none insertion]
    rfl
  rcases derive_eq grammar with ⟨left, fault, same, -⟩ | ⟨left, count, same, done⟩
  · rw [collapse] at same
    exact nomatch (Prod.mk.inj same).2
  · rw [collapse] at same
    obtain ⟨rfl, ok⟩ := Prod.mk.inj same
    obtain rfl := Except.ok.inj ok
    rw [done, rounds]

theorem derive_of_uninsertable (collapsed : grammar.IsCollapsed)
    (none : (grammar.phraseRules.filterMap fun (symbol, rule) =>
      (rule.insertion? grammar.fillers).map (symbol, ·)) = []) :
    grammar.derive =
      (grammar.transpose.1, .ok ⟨0, 0, 0, grammar.transpose.2, 1, true⟩) := by
  refine derive_of_settled collapsed ?_
  rw [insertionRound, insertWith, insertionOffers, none, List.mergeSort_nil]
  rfl

/-- A derivation that settles is final: another one changes nothing, and takes a single round to
see it. -/
theorem derive_derive {derived : Grammar κ} {tally : Tally}
    (h : grammar.derive = (derived, .ok tally)) (settled : tally.settled = true) :
    derived.derive = (derived, .ok ⟨0, 0, 0, 0, 1, true⟩) := by
  rcases derive_eq grammar with ⟨left, fault, -, done⟩ | ⟨left, count, collapse, done⟩
  · rw [done] at h
    exact nomatch (Prod.mk.inj h).2
  · rw [done] at h
    obtain ⟨rfl, ok⟩ := Prod.mk.inj h
    have collapsed : left.IsCollapsed := collapse_isCollapsed collapse
    have inserted : (insertionRounds (left.size + 1) left (.ofCollapsed count)).1.IsCollapsed :=
      insertionRounds_induction (Q := fun state => state.1.IsCollapsed)
        (fun h => h.insertionRound) _ collapsed
    have last : (insertionRounds (left.size + 1) left (.ofCollapsed count)).1.insertionRound.2 =
        .none := by
      refine insertionRounds_settled rfl rfl ?_
      rw [← Except.ok.inj ok] at settled
      exact settled
    generalize (insertionRounds (left.size + 1) left (.ofCollapsed count)).1 = grown
      at inserted last
    have transposes := transposes_transpose grown
    have again : grown.transpose.1.insertionRound.2 = .none := by
      rw [insertionRound_eq_iff, transposes.fillers_eq, transposes.insertionOffers_eq]
      intro source mem
      exact transposes.declines (insertionRound_eq_iff.mp last source mem)
    rw [derive_of_settled inserted.transpose again, transpose_transpose]

def wordPair : Grammar Float :=
  run [.newSymbol ["first"], .newSymbol ["second"], .addRule ⟨2⟩ (.word (.ofLiteral "one")),
    .addRule ⟨3⟩ (.word (.ofLiteral "two")),
    .addRule .start (.phrase { PhraseRule.ofSymbols [⟨2⟩, ⟨3⟩] with transpositionCost := some 1 })]

theorem wordPair_derive :
    wordPair.derive = (wordPair.transpose.1, .ok ⟨0, 0, 0, 1, 1, true⟩) := by
  have collapsed : wordPair.IsCollapsed := by
    unfold IsCollapsed
    decide +kernel
  have transpositions : wordPair.transpose.2 = 1 := by decide +kernel
  rw [derive_of_uninsertable collapsed (by decide +kernel), transpositions]

/-- The other order of the words is found by the first derivation only. -/
theorem wordPair_derive_derive :
    wordPair.derive = (wordPair.transpose.1, .ok ⟨0, 0, 0, 1, 1, true⟩) ∧
      wordPair.transpose.1.derive = (wordPair.transpose.1, .ok ⟨0, 0, 0, 0, 1, true⟩) :=
  ⟨wordPair_derive, derive_derive wordPair_derive rfl⟩

end Grammar

end PhraseGrammar
