import PhraseGrammar.Proofs.Collapsing
import PhraseGrammar.Proofs.Runs

/-! What insertion and transposition do: which rules they make of authored pairs, and how these come
among the rules that are there. -/

namespace PhraseGrammar

variable {κ : Type} [Cost κ]

namespace PhraseRule

variable {rule made : PhraseRule κ}

omit [Cost κ] in
theorem pair?_eq_some {pair : Slot × Slot} :
    rule.pair? = some pair ↔ rule.slots = [pair.1, pair.2] := by
  unfold pair?
  split
  case h_1 first second same =>
    rw [same, Option.some.injEq, Prod.ext_iff]
    simp only [List.cons.injEq, and_true]
  case h_2 other =>
    exact ⟨nofun, fun same => absurd same (other _ _)⟩

theorem insertion?_eq_some {best : Fillers κ} :
    rule.insertion? best = some made ↔
      rule.origin = .authored ∧ rule.unabridged = false ∧ ∃ pair place filler,
        rule.slots = [pair.1, pair.2] ∧
        cheaperPlace (rule.slotFiller? best pair.1 0) (rule.slotFiller? best pair.2 1) =
          some (place, filler) ∧
        rule.eliding pair place filler = made := by
  unfold insertion?
  split
  case isTrue authored =>
    rw [and_iff_right authored.1, and_iff_right (by simpa using authored.2)]
    simp only [Option.bind_eq_bind, Option.bind_eq_some_iff, pair?_eq_some, Prod.exists]
    exact exists₂_congr fun first second => ⟨
      fun ⟨slots, place, filler, chosen, same⟩ =>
        ⟨place, filler, slots, chosen, Option.some.inj same⟩,
      fun ⟨place, filler, slots, chosen, same⟩ =>
        ⟨slots, place, filler, chosen, congrArg some same⟩⟩
  case isFalse other =>
    exact ⟨nofun, fun ⟨authored, abridged, _⟩ => absurd ⟨authored, by simp [abridged]⟩ other⟩

theorem transposition?_eq_some :
    rule.transposition? = some made ↔
      rule.origin = .authored ∧ ∃ pair cost, rule.slots = [pair.1, pair.2] ∧
        rule.transpositionCost = some cost ∧ rule.swapping pair cost = made := by
  unfold transposition?
  split
  case isTrue authored =>
    rw [and_iff_right authored]
    simp only [Option.bind_eq_bind, Option.bind_eq_some_iff, pair?_eq_some]
    exact exists_congr fun pair => ⟨
      fun ⟨slots, cost, declared, same⟩ => ⟨cost, slots, declared, Option.some.inj same⟩,
      fun ⟨cost, slots, declared, same⟩ => ⟨slots, cost, declared, congrArg some same⟩⟩
  case isFalse other =>
    exact ⟨nofun, fun ⟨authored, _⟩ => absurd authored other⟩

end PhraseRule

/-- An offered rule comes last, takes the place of an insertion rule with its right-hand side, or
is declined. -/
theorem offerRule_cases (nameOf : Symbol → String) (rule : PhraseRule κ) (rules : List (Rule κ)) :
    (∀ present ∈ rules, present.side ≠ .phrase rule.symbols) ∧
        offerRule nameOf rule rules = (rules ++ [.phrase rule], .added) ∨
      (∃ before present after, rules = before ++ .phrase present :: after ∧
        present.symbols = rule.symbols ∧ present.origin = .insertion ∧
        rule.compare nameOf present = .lt ∧
        offerRule nameOf rule rules = (before ++ .phrase rule :: after, .replaced)) ∨
      (∃ present ∈ rules, present.side = .phrase rule.symbols ∧
          rule.supersedes nameOf present = false) ∧
        offerRule nameOf rule rules = (rules, .declined) := by
  induction rules with
  | nil => exact .inl ⟨fun _ mem => absurd mem List.not_mem_nil, rfl⟩
  | cons first rest ih =>
    rw [offerRule]
    by_cases same : first.side = .phrase rule.symbols
    · rw [if_pos same]
      by_cases better : rule.supersedes nameOf first = true
      · rw [if_pos better]
        cases first with
        | word word => exact nomatch same
        | phrase present =>
          simp only [PhraseRule.supersedes, Bool.and_eq_true, decide_eq_true_eq, beq_iff_eq]
            at better
          exact .inr (.inl ⟨[], present, rest, rfl, Side.phrase.inj same, better.1, better.2, rfl⟩)
      · rw [if_neg better]
        exact .inr (.inr ⟨⟨first, List.mem_cons_self, same, Bool.eq_false_iff.mpr better⟩, rfl⟩)
    · rw [if_neg same]
      rcases ih with ⟨fresh, added⟩ | ⟨before, present, after, rfl, side, origin, less, replaced⟩ |
        ⟨⟨present, mem, side, kept⟩, declined⟩
      · rw [added]
        exact .inl ⟨List.forall_mem_cons.mpr ⟨same, fresh⟩, rfl⟩
      · rw [replaced]
        exact .inr (.inl ⟨first :: before, present, after, rfl, side, origin, less, rfl⟩)
      · rw [declined]
        exact .inr (.inr ⟨⟨present, List.mem_cons_of_mem _ mem, side, kept⟩, rfl⟩)

namespace Grammar

variable {grammar : Grammar κ} {symbol : Symbol}

omit [Cost κ] in
def setRules (grammar : Grammar κ) (symbol : Symbol) (rules : List (Rule κ)) : Grammar κ :=
  grammar.update symbol fun entry => { entry with rules }

omit [Cost κ] in
theorem rulesOf_of_size_le (h : grammar.size ≤ symbol.index) : grammar.rulesOf symbol = [] := by
  rw [rulesOf, entryOf?, List.getElem?_eq_none h, Option.map_none, Option.getD_none]

omit [Cost κ] in
theorem lt_size_of_entryOf? {entry : Entry κ} (h : grammar.entryOf? symbol = some entry) :
    symbol.index < grammar.size :=
  entryOf?_isSome.mp (Option.isSome_iff_exists.mpr ⟨entry, h⟩)

omit [Cost κ] in
theorem lt_size_of_item? {item : VocabularyItem} (h : grammar.item? symbol = some item) :
    symbol.index < grammar.size := by
  obtain ⟨entry, found, -⟩ := Option.bind_eq_some_iff.mp h
  exact lt_size_of_entryOf? found

omit [Cost κ] in
theorem lt_size_of_mem_rulesOf {rule : Rule κ} (h : rule ∈ grammar.rulesOf symbol) :
    symbol.index < grammar.size := by
  refine Decidable.byContradiction fun outside => ?_
  rw [rulesOf_of_size_le (Nat.le_of_not_lt outside)] at h
  exact absurd h List.not_mem_nil

omit [Cost κ] in
theorem rulesOf_setRules_self (h : symbol.index < grammar.size) (rules : List (Rule κ)) :
    (grammar.setRules symbol rules).rulesOf symbol = rules := by
  obtain ⟨entry, found⟩ := Option.isSome_iff_exists.mp (entryOf?_isSome.mpr h)
  rw [rulesOf, setRules, entryOf?_update_self, found, Option.map_some, Option.map_some,
    Option.getD_some]

omit [Cost κ] in
theorem rulesOf_setRules_of_ne {other : Symbol} (h : other ≠ symbol) (rules : List (Rule κ)) :
    (grammar.setRules symbol rules).rulesOf other = grammar.rulesOf other := by
  rw [rulesOf, rulesOf, setRules, entryOf?_update_of_ne grammar h]

omit [Cost κ] in
theorem mem_rulesOf_setRules {rules : List (Rule κ)} {rule : Rule κ} {other : Symbol} :
    rule ∈ (grammar.setRules symbol rules).rulesOf other ↔
      other = symbol ∧ other.index < grammar.size ∧ rule ∈ rules ∨
        other ≠ symbol ∧ rule ∈ grammar.rulesOf other := by
  by_cases here : other = symbol
  · subst here
    rw [and_iff_right rfl, or_iff_left (fun h => h.1 rfl)]
    by_cases known : other.index < grammar.size
    · rw [rulesOf_setRules_self known, and_iff_right known]
    · rw [rulesOf_of_size_le (by rw [setRules, size_update]; exact Nat.le_of_not_lt known)]
      exact ⟨fun mem => absurd mem List.not_mem_nil, fun h => absurd h.1 known⟩
  · rw [rulesOf_setRules_of_ne here, or_iff_right (fun h => here h.1), and_iff_right here]

omit [Cost κ] in
theorem mem_rulesOf_append {new rule : Rule κ} {other : Symbol}
    (known : symbol.index < grammar.size) :
    rule ∈ (grammar.setRules symbol (grammar.rulesOf symbol ++ [new])).rulesOf other ↔
      rule ∈ grammar.rulesOf other ∨ other = symbol ∧ rule = new := by
  rw [mem_rulesOf_setRules, List.mem_append, List.mem_singleton]
  by_cases here : other = symbol
  · subst here
    rw [and_iff_right rfl, and_iff_right known, or_iff_left (fun h => h.1 rfl), and_iff_right rfl]
  · rw [or_iff_right (fun h => here h.1), and_iff_right here, or_iff_left (fun h => here h.1)]

omit [Cost κ] in
theorem update_congr {f g : Entry κ → Entry κ}
    (same : ∀ entry, grammar.entryOf? symbol = some entry → f entry = g entry) :
    grammar.update symbol f = grammar.update symbol g := by
  have entries : grammar.entries.modify symbol.index f =
      grammar.entries.modify symbol.index g := by
    refine List.ext_getElem? fun index => ?_
    rw [List.getElem?_modify, List.getElem?_modify]
    by_cases here : symbol.index = index
    · subst here
      cases found : grammar.entries[symbol.index]? with
      | none => rfl
      | some entry => simp only [if_true, Option.map_eq_map, Option.map_some, same entry found]
    · simp only [here, if_false]
  exact congrArg (fun entries => { grammar with entries }) entries

omit [Cost κ] in
theorem rulesOf_eq {entry : Entry κ} (found : grammar.entryOf? symbol = some entry) :
    grammar.rulesOf symbol = entry.rules := by
  rw [rulesOf, found, Option.map_some, Option.getD_some]

omit [Cost κ] in
theorem setRules_rulesOf (grammar : Grammar κ) (symbol : Symbol) :
    grammar.setRules symbol (grammar.rulesOf symbol) = grammar := by
  have same : grammar.setRules symbol (grammar.rulesOf symbol) = grammar.update symbol id :=
    update_congr fun entry found => by rw [rulesOf_eq found, id]
  rw [same, update, List.modify_id]

omit [Cost κ] in
theorem appendRule_eq_setRules (rule : Rule κ) :
    grammar.appendRule symbol rule =
      grammar.setRules symbol (grammar.rulesOf symbol ++ [rule]) :=
  update_congr fun entry found => by rw [rulesOf_eq found]

omit [Cost κ] in
def bare (grammar : Grammar κ) : Grammar κ :=
  { grammar with entries := grammar.entries.map fun entry => { entry with rules := [] } }

omit [Cost κ] in
theorem bare_setRules (grammar : Grammar κ) (symbol : Symbol) (rules : List (Rule κ)) :
    (grammar.setRules symbol rules).bare = grammar.bare := by
  have same : (grammar.entries.modify symbol.index fun entry => { entry with rules }).map
        (fun entry => ({ entry with rules := [] } : Entry κ)) =
      grammar.entries.map fun entry => { entry with rules := [] } := by
    refine List.ext_getElem? fun index => ?_
    rw [List.getElem?_map, List.getElem?_map, List.getElem?_modify]
    cases grammar.entries[index]? with
    | none => rfl
    | some entry => split <;> rfl
  exact congrArg (fun entries => { grammar with entries }) same

section Bare

variable {other : Grammar κ} (h : grammar.bare = other.bare)

include h

omit [Cost κ] in
theorem size_eq_of_bare : grammar.size = other.size := by
  have same := congrArg size h
  rwa [size, size, bare, bare, List.length_map, List.length_map] at same

omit [Cost κ] in
theorem signatures_eq_of_bare : grammar.signatures = other.signatures :=
  congrArg (fun bare => bare.signatures) h

omit [Cost κ] in
theorem zeroFiller?_eq_of_bare (symbol : Symbol) :
    grammar.zeroFiller? symbol = other.zeroFiller? symbol := by
  have filler : ∀ grammar : Grammar κ,
      grammar.bare.zeroFiller? symbol = grammar.zeroFiller? symbol := by
    intro grammar
    simp only [zeroFiller?, entryOf?, bare, List.getElem?_map]
    cases grammar.entries[symbol.index]? <;> rfl
  rw [← filler grammar, h, filler other]

omit [Cost κ] in
theorem item?_eq_of_bare (symbol : Symbol) : grammar.item? symbol = other.item? symbol := by
  have item : ∀ grammar : Grammar κ, grammar.bare.item? symbol = grammar.item? symbol := by
    intro grammar
    simp only [item?, entryOf?, bare, List.getElem?_map]
    cases grammar.entries[symbol.index]? <;> rfl
  rw [← item grammar, h, item other]

omit [Cost κ] in
theorem nameOf_eq_of_bare (symbol : Symbol) : grammar.nameOf symbol = other.nameOf symbol := by
  have name : ∀ grammar : Grammar κ, grammar.bare.nameOf symbol = grammar.nameOf symbol := by
    intro grammar
    simp only [nameOf, entryOf?, bare, List.getElem?_map]
    cases grammar.entries[symbol.index]? <;> rfl
  rw [← name grammar, h, name other]

omit [Cost κ] in
theorem entryOf?_of_bare {entry : Entry κ} (found : other.entryOf? symbol = some entry) :
    grammar.entryOf? symbol = some { entry with rules := grammar.rulesOf symbol } := by
  have same := congrArg (fun bare => bare.entries[symbol.index]?) h
  simp only [bare, List.getElem?_map] at same
  rw [entryOf?] at found
  rw [found, Option.map_some] at same
  obtain ⟨mine, here, eq⟩ := Option.map_eq_some_iff.mp same
  rw [rulesOf_eq here, entryOf?, here]
  cases mine
  cases entry
  simp only [Entry.mk.injEq] at eq
  simp only [Option.some.injEq, Entry.mk.injEq]
  exact ⟨eq.1, trivial, eq.2.2⟩

end Bare

omit [Cost κ] in
theorem mem_phraseRules {source : Symbol × PhraseRule κ} :
    source ∈ grammar.phraseRules ↔ .phrase source.2 ∈ grammar.rulesOf source.1 := by
  unfold phraseRules
  simp only [List.mem_flatMap, List.mem_filterMap, symbols, List.mem_map, List.mem_range]
  constructor
  · rintro ⟨symbol, -, word | rule, mem, same⟩
    · exact nomatch same
    · obtain rfl := Option.some.inj same
      exact mem
  · intro mem
    exact ⟨source.1, ⟨_, lt_size_of_mem_rulesOf mem, rfl⟩, _, mem, rfl⟩

theorem mem_insertionOffers {best : Fillers κ} {source : Symbol × PhraseRule κ} :
    source ∈ grammar.insertionOffers best ↔
      ∃ rule, .phrase rule ∈ grammar.rulesOf source.1 ∧ rule.insertion? best = some source.2 := by
  unfold insertionOffers
  simp only [List.mem_mergeSort, List.mem_filterMap, Option.map_eq_some_iff]
  constructor
  · rintro ⟨⟨symbol, rule⟩, mem, made, offered, rfl⟩
    exact ⟨rule, mem_phraseRules.mp mem, offered⟩
  · rintro ⟨rule, mem, offered⟩
    exact ⟨(source.1, rule), mem_phraseRules.mpr mem, source.2, offered, rfl⟩

theorem mem_transpositionOffers {source : Symbol × PhraseRule κ} :
    source ∈ grammar.transpositionOffers ↔
      ∃ rule, .phrase rule ∈ grammar.rulesOf source.1 ∧ rule.transposition? = some source.2 := by
  unfold transpositionOffers
  simp only [List.mem_filterMap, Option.map_eq_some_iff]
  constructor
  · rintro ⟨⟨symbol, rule⟩, mem, made, offered, rfl⟩
    exact ⟨rule, mem_phraseRules.mp mem, offered⟩
  · rintro ⟨rule, mem, offered⟩
    exact ⟨(source.1, rule), mem_phraseRules.mpr mem, source.2, offered, rfl⟩

theorem offer_fst (state : Grammar κ × Changes) (source : Symbol × PhraseRule κ) :
    (offer state source).1 = state.1.setRules source.1
      (offerRule state.1.nameOf source.2 (state.1.rulesOf source.1)).1 := rfl

theorem bare_insertWith (best : Fillers κ) : (grammar.insertWith best).1.bare = grammar.bare :=
  List.foldlRecOn (motive := fun state => state.1.bare = grammar.bare) _ offer rfl
    fun state same source _ => by rw [offer_fst, bare_setRules, same]

omit [Cost κ] in
theorem addAbsent_cases (state : Grammar κ × Nat) (source : Symbol × PhraseRule κ) :
    (∃ present ∈ state.1.rulesOf source.1, present.side = .phrase source.2.symbols) ∧
        addAbsent state source = state ∨
      (∀ present ∈ state.1.rulesOf source.1, present.side ≠ .phrase source.2.symbols) ∧
        addAbsent state source =
          (state.1.setRules source.1 (state.1.rulesOf source.1 ++ [.phrase source.2]),
            state.2 + 1) := by
  rw [← appendRule_eq_setRules]
  by_cases present : (state.1.rulesOf source.1).any fun present =>
      present.side = .phrase source.2.symbols
  · exact .inl ⟨by simpa using present, if_pos present⟩
  · exact .inr ⟨by simpa using present, if_neg present⟩

theorem bare_transpose : grammar.transpose.1.bare = grammar.bare :=
  List.foldlRecOn (motive := fun state => state.1.bare = grammar.bare) _ addAbsent rfl
    fun state same source _ => by
      rcases addAbsent_cases state source with ⟨-, h⟩ | ⟨-, h⟩
      · rw [h, same]
      · rw [h, bare_setRules, same]

theorem insertionRounds_succ (rounds : Nat) (grammar : Grammar κ) (tally : Tally) :
    insertionRounds (rounds + 1) grammar tally =
      if (tally.recordRound grammar.insertionRound.2).settled then
        (grammar.insertionRound.1, tally.recordRound grammar.insertionRound.2)
      else insertionRounds rounds grammar.insertionRound.1
        (tally.recordRound grammar.insertionRound.2) := rfl

theorem insertionRounds_induction {Q : Grammar κ × Tally → Prop}
    (round : ∀ {grammar : Grammar κ} {tally : Tally}, Q (grammar, tally) →
      Q (grammar.insertionRound.1, tally.recordRound grammar.insertionRound.2))
    (rounds : Nat) {grammar : Grammar κ} {tally : Tally} (h : Q (grammar, tally)) :
    Q (insertionRounds rounds grammar tally) := by
  induction rounds generalizing grammar tally with
  | zero => exact h
  | succ rounds ih =>
    rw [insertionRounds_succ]
    split
    · exact round h
    · exact ih (round h)

theorem derive_eq (grammar : Grammar κ) :
    (∃ left fault, grammar.collapse = (left, .error fault) ∧
        grammar.derive = (left, .error fault)) ∨
      ∃ left count, grammar.collapse = (left, .ok count) ∧
        grammar.derive =
          ((insertionRounds (left.size + 1) left (.ofCollapsed count)).1.transpose.1,
            .ok { (insertionRounds (left.size + 1) left (.ofCollapsed count)).2 with
              transpositions :=
                (insertionRounds (left.size + 1) left (.ofCollapsed count)).1.transpose.2 }) := by
  unfold derive
  split
  case h_1 left fault same => exact .inl ⟨left, fault, same, rfl⟩
  case h_2 left count same => exact .inr ⟨left, count, same, rfl⟩

/-- What collapsing, insertion and transposition keep each, derivation keeps. -/
theorem derive_induction {Q : Grammar κ → Prop}
    (round : ∀ {grammar : Grammar κ}, Q grammar → Q grammar.collapseRound.1)
    (insertion : ∀ {grammar : Grammar κ}, Q grammar → Q grammar.insertionRound.1)
    (transposition : ∀ {grammar : Grammar κ}, Q grammar → Q grammar.transpose.1)
    (h : Q grammar) : Q grammar.derive.1 := by
  have collapsed : Q grammar.collapse.1 := collapse_induction round h
  rcases derive_eq grammar with ⟨left, fault, same, done⟩ | ⟨left, count, same, done⟩
  · rw [same] at collapsed
    rw [done]
    exact collapsed
  · rw [same] at collapsed
    rw [done]
    exact transposition (insertionRounds_induction (Q := fun state => Q state.1) insertion _
      collapsed)

theorem derive_names (grammar : Grammar κ) :
    grammar.derive.1.size = grammar.size ∧
      ∀ symbol, grammar.derive.1.nameOf symbol = grammar.nameOf symbol := by
  refine derive_induction
    (Q := fun derived => derived.size = grammar.size ∧
      ∀ symbol, derived.nameOf symbol = grammar.nameOf symbol)
    (fun h => ?_) (fun h => ?_) (fun h => ?_) ⟨rfl, fun _ => rfl⟩
  · exact ⟨(size_collapseRound _).trans h.1,
      fun symbol => (nameOf_collapseRound _ symbol).trans (h.2 symbol)⟩
  · exact ⟨(size_eq_of_bare (bare_insertWith _)).trans h.1,
      fun symbol => (nameOf_eq_of_bare (bare_insertWith _) symbol).trans (h.2 symbol)⟩
  · exact ⟨(size_eq_of_bare bare_transpose).trans h.1,
      fun symbol => (nameOf_eq_of_bare bare_transpose symbol).trans (h.2 symbol)⟩

namespace AllRules

variable {P : Rule κ → Prop}

omit [Cost κ] in
theorem setRules (h : grammar.AllRules P) {rules : List (Rule κ)} (given : ∀ rule ∈ rules, P rule) :
    (grammar.setRules symbol rules).AllRules P := by
  intro other rule mem
  rcases mem_rulesOf_setRules.mp mem with ⟨-, -, mem⟩ | ⟨-, mem⟩
  · exact given rule mem
  · exact h other rule mem

theorem collapseRound_of_mem (h : grammar.AllRules P)
    (remainder : ∀ {symbol : Symbol} {rule : PhraseRule κ},
      .phrase rule ∈ grammar.rulesOf symbol → rule.hasVanishing grammar.vanishing = true →
      rule.staying grammar.vanishing ≠ [] → P (.phrase (rule.remainder grammar.vanishing))) :
    grammar.collapseRound.1.AllRules P := by
  intro symbol rule mem
  obtain ⟨entry, found, here⟩ := mem_rulesOf.mp mem
  rcases collapseRound_cases grammar symbol with same | ⟨before, known, collapsed⟩
  · exact h symbol rule (mem_rulesOf.mpr ⟨entry, same ▸ found, here⟩)
  · obtain rfl := Option.some.inj (found.symm.trans collapsed)
    rcases List.mem_append.mp here with here | here
    · exact h symbol rule (mem_rulesOf.mpr ⟨before, known, (Entry.mem_untouched.mp here).1⟩)
    · obtain ⟨old, affected, some, rfl⟩ := Entry.mem_remainders.mp here
      obtain ⟨there, loses⟩ := Entry.mem_affected.mp affected
      exact remainder (mem_rulesOf.mpr ⟨before, known, there⟩) loses some

theorem collapseRound (h : grammar.AllRules P)
    (remainder : ∀ {rule : PhraseRule κ} (vanishing : Fillers κ), P (.phrase rule) →
      P (.phrase (rule.remainder vanishing))) : grammar.collapseRound.1.AllRules P :=
  h.collapseRound_of_mem fun mem _ _ => remainder _ (h _ _ mem)

theorem offer {state : Grammar κ × Changes} (h : state.1.AllRules P)
    {source : Symbol × PhraseRule κ} (given : P (.phrase source.2)) :
    (offer state source).1.AllRules P := by
  rw [offer_fst]
  refine h.setRules fun rule mem => ?_
  rcases offerRule_cases state.1.nameOf source.2 (state.1.rulesOf source.1) with
    ⟨-, done⟩ | ⟨before, present, after, rules, -, -, -, done⟩ | ⟨-, done⟩
  · rw [done] at mem
    rcases List.mem_append.mp mem with mem | mem
    · exact h _ rule mem
    · exact List.mem_singleton.mp mem ▸ given
  · rw [done] at mem
    have old : ∀ rule ∈ before ++ .phrase present :: after, P rule := rules ▸ h source.1
    rcases List.mem_append.mp mem with mem | mem
    · exact old rule (List.mem_append_left _ mem)
    · rcases List.mem_cons.mp mem with rfl | mem
      · exact given
      · exact old rule (List.mem_append_right _ (List.mem_cons_of_mem _ mem))
  · rw [done] at mem
    exact h _ rule mem

theorem insertionRound_of_offers (h : grammar.AllRules P)
    (offered : ∀ {rule made : PhraseRule κ}, P (.phrase rule) →
      rule.insertion? grammar.fillers = some made → P (.phrase made)) :
    grammar.insertionRound.1.AllRules P := by
  refine List.foldlRecOn (motive := fun state : Grammar κ × Changes => state.1.AllRules P)
    _ Grammar.offer h fun state held source mem => held.offer ?_
  obtain ⟨rule, present, made⟩ := mem_insertionOffers.mp mem
  exact offered (h _ _ present) made

theorem insertionRound (h : grammar.AllRules P)
    (eliding : ∀ {rule : PhraseRule κ} {pair : Slot × Slot} (place : Place) (filler : Filler κ),
      P (.phrase rule) → rule.origin = .authored → rule.slots = [pair.1, pair.2] →
      P (.phrase (rule.eliding pair place filler))) : grammar.insertionRound.1.AllRules P := by
  refine h.insertionRound_of_offers fun {rule made} held offered => ?_
  obtain ⟨origin, -, pair, place, filler, slots, -, same⟩ :=
    PhraseRule.insertion?_eq_some.mp offered
  exact same ▸ eliding place filler held origin slots

theorem transpose_of_offers (h : grammar.AllRules P)
    (offered : ∀ {rule made : PhraseRule κ}, P (.phrase rule) →
      rule.transposition? = some made → P (.phrase made)) : grammar.transpose.1.AllRules P := by
  refine List.foldlRecOn (motive := fun state : Grammar κ × Nat => state.1.AllRules P)
    _ addAbsent h fun state held source mem => ?_
  obtain ⟨rule, present, made⟩ := mem_transpositionOffers.mp mem
  have given := offered (h _ _ present) made
  rcases addAbsent_cases state source with ⟨-, done⟩ | ⟨-, done⟩
  · rw [done]
    exact held
  · rw [done]
    refine held.setRules fun rule mem => ?_
    rcases List.mem_append.mp mem with mem | mem
    · exact held _ rule mem
    · exact List.mem_singleton.mp mem ▸ given

theorem transpose (h : grammar.AllRules P)
    (swapping : ∀ {rule : PhraseRule κ} {pair : Slot × Slot} (cost : κ),
      P (.phrase rule) → rule.origin = .authored → rule.slots = [pair.1, pair.2] →
      P (.phrase (rule.swapping pair cost))) : grammar.transpose.1.AllRules P := by
  refine h.transpose_of_offers fun {rule made} held offered => ?_
  obtain ⟨origin, pair, cost, slots, -, same⟩ := PhraseRule.transposition?_eq_some.mp offered
  exact same ▸ swapping cost held origin slots

end AllRules

end Grammar

end PhraseGrammar
