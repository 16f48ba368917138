import PhraseGrammar.Proofs.Runs
import PhraseGrammar.Proofs.Synthesis

/-! Consistency of grammars: names and symbols correspond, and all rules are sound. Every run keeps
it, whether its operations are refused or not. -/

namespace PhraseGrammar

variable {κ : Type}

structure WordRule.IsSound (rule : WordRule κ) : Prop where
  token : isToken rule.literal = true
  placeholder : rule.category.isSome ∨ rule.range.isSome → rule.insertionCost = none
  range : ∀ range ∈ rule.range, range.least ≤ range.greatest

structure PhraseRule.IsSound (size : Nat) (rule : PhraseRule κ) : Prop where
  count : rule.slots.length = 1 ∨ rule.slots.length = 2
  children : ∀ symbol ∈ rule.symbols, symbol.index < size
  positions : ∀ position ∈ rule.requiredPositions, position < rule.slots.length
  transposition : rule.transpositionCost.isSome → rule.slots.length = 2

def Rule.IsSound (size : Nat) : Rule κ → Prop
  | .word rule => rule.IsSound
  | .phrase rule => rule.IsSound size

theorem Rule.IsSound.mono {rule : Rule κ} {size more : Nat} (h : rule.IsSound size)
    (grows : size ≤ more) : rule.IsSound more := by
  cases rule with
  | word rule => exact h
  | phrase rule =>
    exact { h with children := fun symbol mem => Nat.lt_of_lt_of_le (h.children symbol mem) grows }

namespace PhraseRule

variable {rule : PhraseRule κ} {size : Nat} {pair : Slot × Slot}

theorem mem_symbols_of_pair (slots : rule.slots = [pair.1, pair.2]) {symbol : Symbol} :
    symbol ∈ rule.symbols ↔ symbol = pair.1.symbol ∨ symbol = pair.2.symbol := by
  rw [symbols, slots]
  simp only [List.map_cons, List.map_nil, List.mem_cons, List.not_mem_nil, or_false]

variable [Cost κ]

theorem IsSound.eliding (h : rule.IsSound size) (slots : rule.slots = [pair.1, pair.2])
    (place : Place) (filler : Filler κ) : (rule.eliding pair place filler).IsSound size where
  count := .inl rfl
  children symbol mem := by
    obtain rfl := List.mem_singleton.mp mem
    refine h.children _ ((mem_symbols_of_pair slots).mpr ?_)
    cases place with
    | first => exact .inr rfl
    | second => exact .inl rfl
  positions position mem := by
    obtain ⟨old, -, same⟩ := mem_remapPositions.mp mem
    split at same
    · exact Option.some.inj same ▸ Nat.one_pos
    · exact nomatch same
  transposition := nofun

theorem IsSound.swapping (h : rule.IsSound size) (slots : rule.slots = [pair.1, pair.2])
    (cost : κ) : (rule.swapping pair cost).IsSound size where
  count := .inr rfl
  children symbol mem := by
    have swapped : (rule.swapping pair cost).slots = [pair.swap.1, pair.swap.2] := rfl
    exact h.children symbol
      ((mem_symbols_of_pair slots).mpr ((mem_symbols_of_pair swapped).mp mem).symm)
  positions position mem := by
    obtain ⟨old, -, same⟩ := mem_remapPositions.mp mem
    rw [← Option.some.inj same]
    exact Nat.lt_succ_of_le (Nat.sub_le 1 old)
  transposition := nofun

end PhraseRule

theorem Rule.IsSound.of_check [Cost κ] {grammar : Grammar κ} {name : String} {rule : Rule κ}
    (h : grammar.checkRule name rule = .ok ()) : rule.IsSound grammar.size := by
  cases rule with
  | word rule =>
    obtain ⟨token, -, -, placeholder, range⟩ := WordRule.check_ok.mp h
    refine ⟨token, fun stands => ?_, range⟩
    exact Option.not_isSome_iff_eq_none.mp fun costs => placeholder ⟨costs, stands⟩
  | phrase rule =>
    obtain ⟨count, children, -, -, transposition, -, positions⟩ := PhraseRule.check_ok.mp h
    refine ⟨count, children, positions, fun costs => ?_⟩
    exact Decidable.byContradiction fun other => transposition ⟨costs, other⟩

structure Entry.IsSound (size : Nat) (entry : Entry κ) : Prop where
  rules : ∀ rule ∈ entry.rules, rule.IsSound size
  apart : Rule.Apart entry.rules
  ascending : entry.vanished.Pairwise fun a b => a.index < b.index
  vanished : ∀ symbol ∈ entry.vanished, symbol.index < size ∧ symbol ≠ .empty

theorem Entry.IsSound.ofName (name : String) (size : Nat) :
    (Entry.ofName name : Entry κ).IsSound size where
  rules _ mem := absurd mem List.not_mem_nil
  apart := .nil
  ascending := .nil
  vanished _ mem := absurd mem List.not_mem_nil

theorem Entry.IsSound.mono {entry : Entry κ} {size more : Nat} (h : entry.IsSound size)
    (grows : size ≤ more) : entry.IsSound more where
  rules rule mem := (h.rules rule mem).mono grows
  apart := h.apart
  ascending := h.ascending
  vanished symbol mem :=
    (h.vanished symbol mem).imp_left fun below => Nat.lt_of_lt_of_le below grows

theorem Entry.IsSound.collapses [Cost κ] {grammar : Grammar κ} {vanishing : Fillers κ}
    {before after : Entry κ} (h : before.IsSound grammar.size)
    (collapses : grammar.Collapses vanishing before after) : after.IsSound grammar.size := by
  rcases collapses with rfl | ⟨-, valid, same⟩
  · exact h
  · obtain ⟨rules, checked, restApart, apart⟩ := Grammar.validateAll_ok.mp valid
    refine ⟨?_, ?_, ?_, ?_⟩
    · rw [rules]
      intro rule mem
      rcases List.mem_append.mp mem with mem | mem
      · exact h.rules rule (Entry.mem_untouched.mp mem).1
      · exact .of_check (checked rule mem)
    · rw [rules]
      exact List.pairwise_append.mpr ⟨h.apart.filter _, restApart, apart⟩
    · rw [same]
      refine eraseReps_ascending (fun a b same => ?_) (mergeSort_sorted Symbol.index _)
      cases a
      exact congrArg Symbol.mk same
    · rw [same]
      intro symbol mem
      rcases List.mem_append.mp (List.mem_mergeSort.mp (mem_eraseReps.mp mem)) with mem | mem
      · exact h.vanished symbol mem
      · obtain ⟨rule, affected, child, -, other⟩ := Entry.mem_gone.mp mem
        have sound := h.rules _ (Entry.mem_affected.mp affected).1
        exact ⟨PhraseRule.IsSound.children sound symbol child, other⟩

namespace Grammar

variable {grammar grown : Grammar κ}

/-- What every operation keeps: the reserved symbols are in place, no name is there twice, and
every entry is sound. -/
structure IsSound (grammar : Grammar κ) : Prop where
  names : (grammar.entries.map (·.name)).Nodup
  start : (grammar.entryOf? .start).map (·.name) = some SymbolName.start
  empty : grammar.entryOf? .empty = some (.ofName SymbolName.empty)
  entry : ∀ {symbol entry}, grammar.entryOf? symbol = some entry → entry.IsSound grammar.size

namespace IsSound

theorem new : (new : Grammar κ).IsSound where
  names := by
    have apart : [SymbolName.start, SymbolName.empty].Nodup := by decide
    exact apart
  start := rfl
  empty := rfl
  entry {symbol entry} found := by
    have mem : entry ∈ [Entry.ofName SymbolName.start, Entry.ofName SymbolName.empty] :=
      List.mem_of_getElem? found
    rw [List.mem_pair] at mem
    rcases mem with rfl | rfl
    · exact .ofName _ _
    · exact .ofName _ _

theorem start_lt (h : grammar.IsSound) : Symbol.start.index < grammar.size := by
  obtain ⟨entry, found, -⟩ := Option.map_eq_some_iff.mp h.start
  exact entryOf?_isSome.mp (found ▸ rfl)

theorem rulesOf_empty (h : grammar.IsSound) : grammar.rulesOf .empty = [] :=
  rulesOf_eq h.empty

theorem ne_empty (h : grammar.IsSound) {symbol : Symbol} {rule : Rule κ}
    (mem : rule ∈ grammar.rulesOf symbol) : symbol ≠ .empty := by
  rintro rfl
  rw [h.rulesOf_empty] at mem
  exact absurd mem List.not_mem_nil

theorem rule (h : grammar.IsSound) {symbol : Symbol} {rule : Rule κ}
    (mem : rule ∈ grammar.rulesOf symbol) : rule.IsSound grammar.size := by
  obtain ⟨entry, found⟩ :=
    Option.isSome_iff_exists.mp (entryOf?_isSome.mpr (lt_size_of_mem_rulesOf mem))
  rw [rulesOf_eq found] at mem
  exact (h.entry found).rules rule mem

theorem apart (h : grammar.IsSound) (symbol : Symbol) : Rule.Apart (grammar.rulesOf symbol) := by
  cases found : grammar.entryOf? symbol with
  | none =>
    rw [rulesOf, found]
    exact .nil
  | some entry =>
    rw [rulesOf_eq found]
    exact (h.entry found).apart

theorem setRules (h : grammar.IsSound) {symbol : Symbol} {rules : List (Rule κ)}
    (other : symbol ≠ .empty) (sound : ∀ rule ∈ rules, rule.IsSound grammar.size)
    (apart : Rule.Apart rules) : (grammar.setRules symbol rules).IsSound where
  names := by
    have same := congrArg (fun bare => bare.entries.map (·.name)) (bare_setRules grammar
      symbol rules)
    simp only [bare, List.map_map] at same
    exact same ▸ h.names
  start := by
    by_cases here : Symbol.start = symbol
    · rw [← here, Grammar.setRules, entryOf?_update_self, Option.map_map]
      exact h.start
    · rw [Grammar.setRules, entryOf?_update_of_ne grammar here]
      exact h.start
  empty := by
    rw [Grammar.setRules, entryOf?_update_of_ne grammar other.symm]
    exact h.empty
  entry {at' entry} found := by
    rw [Grammar.setRules, size_update]
    by_cases here : at' = symbol
    · rw [here, Grammar.setRules, entryOf?_update_self] at found
      obtain ⟨old, before, rfl⟩ := Option.map_eq_some_iff.mp found
      have old := h.entry before
      exact ⟨sound, apart, old.ascending, old.vanished⟩
    · rw [Grammar.setRules, entryOf?_update_of_ne grammar here] at found
      exact h.entry found

theorem appendRule (h : grammar.IsSound) {symbol : Symbol} {rule : Rule κ}
    (other : symbol ≠ .empty) (sound : rule.IsSound grammar.size)
    (fresh : ∀ present ∈ grammar.rulesOf symbol, present.side ≠ rule.side) :
    (grammar.setRules symbol (grammar.rulesOf symbol ++ [rule])).IsSound := by
  refine h.setRules other (fun rule' mem => ?_) ?_
  · rcases List.mem_append.mp mem with mem | mem
    · exact h.rule mem
    · exact List.mem_singleton.mp mem ▸ sound
  · refine List.pairwise_append.mpr ⟨h.apart symbol, List.pairwise_singleton _ _, ?_⟩
    exact fun present mem last here => List.mem_singleton.mp here ▸ fresh present mem

theorem push (h : grammar.IsSound) {entry : Entry κ}
    (fresh : ∀ present ∈ grammar.entries, present.name ≠ entry.name)
    (sound : entry.IsSound grammar.size) : (grammar.push entry).1.IsSound where
  names := by
    change ((grammar.entries ++ [entry]).map (·.name)).Nodup
    rw [List.map_append]
    refine List.pairwise_append.mpr ⟨h.names, List.pairwise_singleton _ _, ?_⟩
    intro name named other here
    obtain ⟨present, mem, rfl⟩ := List.mem_map.mp named
    exact List.mem_singleton.mp here ▸ fresh present mem
  start := by
    rw [entryOf?_push_of_lt grammar entry h.start_lt]
    exact h.start
  empty := by
    have known : Symbol.empty.index < grammar.size := entryOf?_isSome.mp (h.empty ▸ rfl)
    rw [entryOf?_push_of_lt grammar entry known]
    exact h.empty
  entry {symbol found} here := by
    have size := size_push grammar entry
    rw [size]
    by_cases old : symbol.index < grammar.size
    · rw [entryOf?_push_of_lt grammar entry old] at here
      exact (h.entry here).mono (Nat.le_succ _)
    · have known := entryOf?_isSome.mp (Option.isSome_iff_exists.mpr ⟨found, here⟩)
      have last : symbol = (grammar.push entry).2 := congrArg Symbol.mk (by omega)
      rw [last, entryOf?_push_self] at here
      exact Option.some.inj here ▸ sound.mono (Nat.le_succ _)

variable [Cost κ]

theorem step (h : grammar.IsSound) (step : Step (fun _ => True) grammar grown) :
    grown.IsSound := by
  cases step with
  | @define name rules item fresh _ valid =>
    obtain ⟨-, checked, apart, -⟩ := validateAll_ok.mp valid
    refine h.push (fun present mem same => ?_) ?_
    · have other := List.findIdx?_eq_none_iff.mp (Option.map_eq_none_iff.mp fresh) present mem
      exact absurd (beq_of_eq same) (Bool.not_eq_true _ ▸ other)
    · exact ⟨fun rule mem => .of_check (checked rule mem), apart, .nil,
        fun _ mem => absurd mem List.not_mem_nil⟩
  | @append symbol entry rule found other _ _ valid =>
    obtain ⟨checked, fresh⟩ := validate_ok.mp valid
    rw [appendRule_eq_setRules]
    exact h.appendRule other (.of_check checked) (rulesOf_eq found ▸ fresh)
  | declare signatures => exact ⟨h.names, h.start, h.empty, h.entry⟩
  | register categories => exact ⟨h.names, h.start, h.empty, h.entry⟩

/-- Also a round of collapsing that is refused keeps the grammar sound. -/
theorem collapseRound (h : grammar.IsSound) : grammar.collapseRound.1.IsSound := by
  have entries := collapseRound_collapses grammar
  have size := size_collapseRound grammar
  have names : grammar.entries.map (·.name) = grammar.collapseRound.1.entries.map (·.name) :=
    List.forall₂_eq_eq_eq ▸ List.forall₂_map_left_iff.mpr
      (List.forall₂_map_right_iff.mpr (entries.imp fun _ _ collapses => collapses.name_eq))
  refine ⟨names ▸ h.names, ?_, ?_, fun {symbol entry} found => ?_⟩
  · have first := collapseRound_entryOf? grammar .start
    obtain ⟨entry, found, name⟩ := Option.map_eq_some_iff.mp h.start
    rw [found] at first
    generalize grammar.collapseRound.1.entryOf? .start = left at first
    cases first with
    | some collapses => exact congrArg some (collapses.name_eq.symm.trans name)
  · have second := collapseRound_entryOf? grammar .empty
    rw [h.empty] at second
    generalize grammar.collapseRound.1.entryOf? .empty = left at second
    cases second with
    | some collapses =>
      rcases collapses with rfl | ⟨affected, -⟩
      · rfl
      · exact absurd rfl affected
  · have collapses := collapseRound_entryOf? grammar symbol
    rw [found] at collapses
    generalize before : grammar.entryOf? symbol = old at collapses
    cases collapses with
    | some collapses => exact size ▸ (h.entry before).collapses collapses

theorem offer (h : grammar.IsSound) {source : Symbol × PhraseRule κ} (other : source.1 ≠ .empty)
    (sound : source.2.IsSound grammar.size) (changes : Changes) :
    (offer (grammar, changes) source).1.IsSound := by
  rw [offer_fst]
  rcases offerRule_cases grammar.nameOf source.2 (grammar.rulesOf source.1) with
    ⟨fresh, done⟩ | ⟨before, present, after, rules, side, -, -, done⟩ | ⟨-, done⟩
  · rw [done]
    exact h.appendRule other sound fresh
  · rw [done]
    have apart := rules ▸ h.apart source.1
    refine h.setRules other (fun rule mem => ?_) ?_
    · rcases List.mem_append.mp mem with mem | mem
      · exact h.rule (rules ▸ List.mem_append_left _ mem)
      · rcases List.mem_cons.mp mem with rfl | mem
        · exact sound
        · exact h.rule (rules ▸ List.mem_append_right _ (List.mem_cons_of_mem _ mem))
    · have sides : (Rule.phrase source.2).side = (Rule.phrase present).side :=
        congrArg Side.phrase side.symm
      rw [Rule.Apart, List.pairwise_append, List.pairwise_cons] at apart ⊢
      simp only [List.forall_mem_cons, sides] at apart ⊢
      exact apart
  · rw [done, setRules_rulesOf]
    exact h

theorem insertionRound (h : grammar.IsSound) : grammar.insertionRound.1.IsSound := by
  have kept : grammar.insertionRound.1.IsSound ∧ grammar.insertionRound.1.size = grammar.size := by
    refine List.foldlRecOn
      (motive := fun state : Grammar κ × Changes => state.1.IsSound ∧ state.1.size = grammar.size)
      _ Grammar.offer ⟨h, rfl⟩ fun state held source mem => ?_
    obtain ⟨rule, present, made⟩ := mem_insertionOffers.mp mem
    obtain ⟨-, -, pair, place, filler, slots, -, same⟩ := PhraseRule.insertion?_eq_some.mp made
    have sound := PhraseRule.IsSound.eliding (h.rule present) slots place filler
    exact ⟨held.1.offer (h.ne_empty present) (held.2 ▸ same ▸ sound) _,
      (size_update ..).trans held.2⟩
  exact kept.1

theorem transpose (h : grammar.IsSound) : grammar.transpose.1.IsSound := by
  have kept : grammar.transpose.1.IsSound ∧ grammar.transpose.1.size = grammar.size := by
    refine List.foldlRecOn
      (motive := fun state : Grammar κ × Nat => state.1.IsSound ∧ state.1.size = grammar.size)
      _ addAbsent ⟨h, rfl⟩ fun state held source mem => ?_
    rcases addAbsent_cases state source with ⟨-, done⟩ | ⟨fresh, done⟩
    · rw [done]
      exact held
    · obtain ⟨rule, present, made⟩ := mem_transpositionOffers.mp mem
      obtain ⟨-, pair, cost, slots, -, same⟩ := PhraseRule.transposition?_eq_some.mp made
      have sound := PhraseRule.IsSound.swapping (h.rule present) slots cost
      rw [done]
      exact ⟨held.1.appendRule (h.ne_empty present) (held.2 ▸ same ▸ sound) fresh,
        (size_update ..).trans held.2⟩
  exact kept.1

theorem derive (h : grammar.IsSound) : grammar.derive.1.IsSound :=
  derive_induction collapseRound insertionRound transpose h

theorem run (operations : List (Operation κ)) : (run operations).IsSound :=
  run_induction new step (fun _ => derive) fun operation _ => operation.supplies_true

end IsSound

/-- What can be relied on in every grammar, read through its lookups. -/
structure IsConsistent (grammar : Grammar κ) : Prop where
  named : ∀ symbol, symbol.index < grammar.size →
    grammar.symbol? (grammar.nameOf symbol) = some symbol
  found : ∀ name symbol, grammar.symbol? name = some symbol →
    symbol.index < grammar.size ∧ grammar.nameOf symbol = name
  start : grammar.symbol? SymbolName.start = some .start
  empty : grammar.symbol? SymbolName.empty = some .empty
  /-- The empty symbol has nothing but its name. -/
  bare : grammar.rulesOf .empty = [] ∧ grammar.item? .empty = none ∧
    grammar.zeroFiller? .empty = none
  words : ∀ symbol rule, .word rule ∈ grammar.rulesOf symbol → rule.IsSound
  phrases : ∀ symbol rule, .phrase rule ∈ grammar.rulesOf symbol → rule.IsSound grammar.size
  apart : ∀ symbol, Rule.Apart (grammar.rulesOf symbol)
  ascending : ∀ symbol, (grammar.vanishedOf symbol).Pairwise fun a b => a.index < b.index
  vanished : ∀ symbol, ∀ child ∈ grammar.vanishedOf symbol,
    child.index < grammar.size ∧ child ≠ .empty

theorem IsSound.symbol?_eq_some (h : grammar.IsSound) {name : String} {symbol : Symbol} :
    grammar.symbol? name = some symbol ↔
      symbol.index < grammar.size ∧ grammar.nameOf symbol = name := by
  have named : ∀ (known : symbol.index < grammar.entries.length),
      grammar.nameOf symbol = grammar.entries[symbol.index].name := by
    intro known
    rw [nameOf, entryOf?, List.getElem?_eq_getElem known, Option.map_some, Option.getD_some]
  have first : grammar.symbol? name = some symbol ↔
      grammar.entries.findIdx? (fun entry => entry.name == name) = some symbol.index := by
    rw [symbol?, Option.map_eq_some_iff]
    constructor
    · rintro ⟨index, same, rfl⟩
      exact same
    · exact fun same => ⟨_, same, rfl⟩
  rw [first, List.findIdx?_eq_some_iff_getElem]
  constructor
  · rintro ⟨known, same, -⟩
    exact ⟨known, (named known).trans (eq_of_beq same)⟩
  · rintro ⟨known, rfl⟩
    refine ⟨known, beq_of_eq (named known).symm, fun index before same => ?_⟩
    -- A name that is there before is another one.
    have apart := List.pairwise_iff_getElem.mp h.names index symbol.index
      (by rw [List.length_map]; exact Nat.lt_trans before known) (by rwa [List.length_map]) before
    rw [List.getElem_map, List.getElem_map] at apart
    exact apart ((eq_of_beq same).trans (named known))

theorem IsSound.nameOf_inj (sound : grammar.IsSound) {a b : Symbol} (ha : a.index < grammar.size)
    (hb : b.index < grammar.size) (same : grammar.nameOf a = grammar.nameOf b) : a = b := by
  have mine := sound.symbol?_eq_some.mpr ⟨ha, rfl⟩
  have yours := sound.symbol?_eq_some.mpr ⟨hb, same.symm⟩
  exact Option.some.inj (mine.symm.trans yours)

theorem IsSound.isConsistent (h : grammar.IsSound) : grammar.IsConsistent where
  named symbol known := h.symbol?_eq_some.mpr ⟨known, rfl⟩
  found name symbol same := h.symbol?_eq_some.mp same
  start := by
    obtain ⟨entry, found, name⟩ := Option.map_eq_some_iff.mp h.start
    refine h.symbol?_eq_some.mpr ⟨entryOf?_isSome.mp (found ▸ rfl), ?_⟩
    rw [nameOf, h.start, Option.getD_some]
  empty := by
    refine h.symbol?_eq_some.mpr ⟨entryOf?_isSome.mp (h.empty ▸ rfl), ?_⟩
    rw [nameOf, h.empty, Option.map_some, Option.getD_some]
    rfl
  bare := by
    rw [item?, zeroFiller?, h.empty]
    exact ⟨h.rulesOf_empty, rfl, rfl⟩
  words symbol rule mem := h.rule mem
  phrases symbol rule mem := h.rule mem
  apart := h.apart
  ascending symbol := by
    unfold vanishedOf
    cases found : grammar.entryOf? symbol with
    | none => exact .nil
    | some entry => exact (h.entry found).ascending
  vanished symbol := by
    unfold vanishedOf
    cases found : grammar.entryOf? symbol with
    | none => exact fun _ mem => absurd mem List.not_mem_nil
    | some entry => exact (h.entry found).vanished

/-- Every run leads to a consistent grammar, whatever rules it offers and whichever of its
operations are refused. -/
theorem run_isConsistent [Cost κ] (operations : List (Operation κ)) :
    (run operations).IsConsistent :=
  (IsSound.run operations).isConsistent

end Grammar

end PhraseGrammar
