import PhraseGrammar.Proofs.Findings

/-! Items of the vocabulary are well formed. A word has only word rules and a sequence only phrases,
whose children are earlier items; that order carries what is proved of nested sequences. Nothing
that is built or derived later changes an authored rule of an item. -/

namespace PhraseGrammar

variable {κ : Type}

namespace Grammar

variable {grammar grown : Grammar κ} {symbol : Symbol} {item : VocabularyItem}

def IsTerm (grammar : Grammar κ) (wordClass : WordClass) (symbols : List Symbol) : Prop :=
  (symbols.length = 1 ∨ symbols.length = 2) ∧
    ∃ symbol ∈ symbols, ∃ item, grammar.item? symbol = some item ∧ item.wordClass = wordClass

theorem IsTerm.mono {wordClass : WordClass} {symbols : List Symbol}
    (h : grammar.IsTerm wordClass symbols)
    (items : ∀ child item, grammar.item? child = some item → grown.item? child = some item) :
    grown.IsTerm wordClass symbols := by
  obtain ⟨length, child, there, part, found, same⟩ := h
  exact ⟨length, child, there, part, items child part found, same⟩

structure IsWellFormed (grammar : Grammar κ) (symbol : Symbol) (item : VocabularyItem) : Prop where
  notReserved : symbol ≠ .start ∧ symbol ≠ .empty
  text : item.text ≠ []
  some : ∃ rule ∈ grammar.rulesOf symbol, rule.origin = .authored
  /-- A sequence has phrases and no words, any other item words and no phrases. -/
  kind : ∀ rule ∈ grammar.rulesOf symbol, rule.isWord = !item.isSequence
  children : ∀ rule, .phrase rule ∈ grammar.rulesOf symbol → ∀ child ∈ rule.symbols,
    child.index < symbol.index ∧ (grammar.item? child).isSome = true
  terms : ∀ rule, .phrase rule ∈ grammar.rulesOf symbol → rule.origin = .authored →
    grammar.IsTerm item.wordClass rule.symbols
  unfilled : grammar.zeroFiller? symbol = none
  unvanished : grammar.vanishedOf symbol = []

def HasWellFormedItems (grammar : Grammar κ) : Prop :=
  ∀ symbol item, grammar.item? symbol = some item → grammar.IsWellFormed symbol item

/-- Every item matches some text. An item is made of earlier ones, so the induction is on its place
in the grammar. -/
theorem HasWellFormedItems.produces (h : grammar.HasWellFormedItems)
    (found : grammar.item? symbol = some item) : grammar.Produces symbol := by
  obtain ⟨index⟩ := symbol
  induction index using Nat.strong_induction_on generalizing item with
  | _ index ih =>
    have formed := h ⟨index⟩ item found
    obtain ⟨rule, mem, -⟩ := formed.some
    cases rule with
    | word rule => exact .word mem
    | phrase rule =>
      refine .phrase mem fun slot there _ => ?_
      obtain ⟨below, some⟩ := formed.children rule mem slot.symbol (List.mem_map_of_mem there)
      obtain ⟨part, found⟩ := Option.isSome_iff_exists.mp some
      exact ih slot.symbol.index below found

/-- A change that leaves an item what it is: it comes to no more than derived phrases with children
that the item has already. -/
structure KeepsItem (grammar grown : Grammar κ) (symbol : Symbol) : Prop where
  items : ∀ child item, grammar.item? child = some item → grown.item? child = some item
  authored : (grown.rulesOf symbol).filter (·.origin = .authored) =
    (grammar.rulesOf symbol).filter (·.origin = .authored)
  derived : ∀ rule ∈ grown.rulesOf symbol, rule.origin ≠ .authored →
    ∃ made before, rule = .phrase made ∧ .phrase before ∈ grammar.rulesOf symbol ∧
      made.symbols ⊆ before.symbols
  zeroFiller : grown.zeroFiller? symbol = grammar.zeroFiller? symbol
  vanished : grown.vanishedOf symbol = grammar.vanishedOf symbol

namespace KeepsItem

theorem mem_of_authored (h : grammar.KeepsItem grown symbol) {rule : Rule κ}
    (origin : rule.origin = .authored) :
    rule ∈ grown.rulesOf symbol ↔ rule ∈ grammar.rulesOf symbol := by
  have same : ∀ rules : List (Rule κ), rule ∈ rules ↔
      rule ∈ rules.filter (·.origin = .authored) := by
    intro rules
    rw [List.mem_filter, and_iff_left (decide_eq_true origin)]
  rw [same, h.authored, ← same]

theorem of_entryOf?_eq (same : grown.entryOf? symbol = grammar.entryOf? symbol)
    (items : ∀ child item, grammar.item? child = some item → grown.item? child = some item) :
    grammar.KeepsItem grown symbol where
  items := items
  authored := by rw [rulesOf, same, ← rulesOf]
  derived rule mem other := by
    rw [rulesOf, same, ← rulesOf] at mem
    cases rule with
    | word word => exact absurd rfl other
    | phrase rule => exact ⟨rule, rule, rfl, mem, List.Subset.refl _⟩
  zeroFiller := by rw [zeroFiller?, same, ← zeroFiller?]
  vanished := by rw [vanishedOf, same, ← vanishedOf]

theorem of_bare (bare : grown.bare = grammar.bare)
    (authored : (grown.rulesOf symbol).filter (·.origin = .authored) =
      (grammar.rulesOf symbol).filter (·.origin = .authored))
    (derived : ∀ rule ∈ grown.rulesOf symbol, rule ∈ grammar.rulesOf symbol ∨
      ∃ made before, rule = .phrase made ∧ .phrase before ∈ grammar.rulesOf symbol ∧
        made.symbols ⊆ before.symbols) : grammar.KeepsItem grown symbol where
  items child item found := (item?_eq_of_bare bare child).trans found
  authored := authored
  derived rule mem other := by
    rcases derived rule mem with old | made
    · cases rule with
      | word word => exact absurd rfl other
      | phrase rule => exact ⟨rule, rule, rfl, old, List.Subset.refl _⟩
    · exact made
  zeroFiller := zeroFiller?_eq_of_bare bare symbol
  vanished := vanishedOf_eq_of_bare bare symbol

theorem isWellFormed (h : grammar.KeepsItem grown symbol)
    (formed : grammar.IsWellFormed symbol item) : grown.IsWellFormed symbol item where
  notReserved := formed.notReserved
  text := formed.text
  some := by
    obtain ⟨rule, mem, origin⟩ := formed.some
    exact ⟨rule, (h.mem_of_authored origin).mpr mem, origin⟩
  kind rule mem := by
    by_cases origin : rule.origin = .authored
    · exact formed.kind rule ((h.mem_of_authored origin).mp mem)
    · obtain ⟨made, before, rfl, there, -⟩ := h.derived rule mem origin
      exact formed.kind (.phrase before) there
  children rule mem child there := by
    have old : ∃ before, .phrase before ∈ grammar.rulesOf symbol ∧ child ∈ before.symbols := by
      by_cases origin : rule.origin = .authored
      · have authored : (Rule.phrase rule).origin = .authored := origin
        exact ⟨rule, (h.mem_of_authored authored).mp mem, there⟩
      · obtain ⟨made, before, same, old, part⟩ := h.derived _ mem origin
        obtain rfl := Rule.phrase.inj same
        exact ⟨before, old, part there⟩
    obtain ⟨before, old, there⟩ := old
    obtain ⟨below, some⟩ := formed.children before old child there
    obtain ⟨part, found⟩ := Option.isSome_iff_exists.mp some
    exact ⟨below, Option.isSome_iff_exists.mpr ⟨part, h.items child part found⟩⟩
  terms rule mem origin := by
    have authored : (Rule.phrase rule).origin = .authored := origin
    exact (formed.terms rule ((h.mem_of_authored authored).mp mem) origin).mono h.items
  unfilled := h.zeroFiller.trans formed.unfilled
  unvanished := h.vanished.trans formed.unvanished

end KeepsItem

variable [Cost κ]

theorem Step.entryOf?_of_item {P : Rule κ → Prop} (step : Step P grammar grown)
    (found : grammar.item? symbol = some item) :
    grown.entryOf? symbol = grammar.entryOf? symbol := by
  obtain ⟨entry, known, here⟩ := Option.bind_eq_some_iff.mp found
  cases step with
  | define =>
    exact entryOf?_push_of_lt grammar _ (lt_size_of_entryOf? known)
  | @append other entry' rule there _ none =>
    refine entryOf?_update_of_ne grammar ?_ _
    rintro rfl
    obtain rfl := Option.some.inj (known.symm.trans there)
    exact nomatch none ▸ here
  | declare => rfl
  | register => rfl

theorem Step.keepsItem {P : Rule κ → Prop} (step : Step P grammar grown)
    (found : grammar.item? symbol = some item) : grammar.KeepsItem grown symbol :=
  .of_entryOf?_eq (step.entryOf?_of_item found) fun child item here => by
    rw [item?, step.entryOf?_of_item here, ← item?, here]

namespace HasWellFormedItems

omit [Cost κ] in
theorem new : (new : Grammar κ).HasWellFormedItems := by
  intro symbol item found
  obtain ⟨entry, found, here⟩ := Option.bind_eq_some_iff.mp found
  have mem : entry ∈ [Entry.ofName SymbolName.start, Entry.ofName SymbolName.empty] :=
    List.mem_of_getElem? found
  rw [List.mem_pair] at mem
  rcases mem with rfl | rfl <;> exact nomatch here

omit [Cost κ] in
theorem displayOf_ne_nil (h : grammar.HasWellFormedItems) {symbols : List Symbol}
    (some : symbols ≠ []) (items : ∀ symbol ∈ symbols, (grammar.item? symbol).isSome = true) :
    grammar.displayOf symbols ≠ [] := by
  obtain ⟨child, there⟩ := List.exists_mem_of_ne_nil _ some
  obtain ⟨part, found⟩ := Option.isSome_iff_exists.mp (items child there)
  obtain ⟨wording, shown⟩ := List.exists_mem_of_ne_nil _ (h child part found).text
  have displayed : wording ∈ grammar.displayOf symbols := by
    refine List.mem_flatMap.mpr ⟨child, there, ?_⟩
    rw [found]
    exact shown
  exact List.ne_nil_of_mem displayed

/-- A symbol with the rules of a new item is well formed: its children are items already, and come
before it. -/
theorem isWellFormed_of_introduces (h : grammar.HasWellFormedItems) {P : Rule κ → Prop}
    {rules : List (Rule κ)} (introduces : Introduces P grammar (some item) rules)
    (has : grown.rulesOf symbol = rules) (notReserved : symbol ≠ .start ∧ symbol ≠ .empty)
    (unfilled : grown.zeroFiller? symbol = none) (unvanished : grown.vanishedOf symbol = [])
    (before : ∀ child part, grammar.item? child = some part →
      child.index < symbol.index ∧ grown.item? child = some part) :
    grown.IsWellFormed symbol item := by
  cases introduces with
  | @words wordClass text words some =>
    obtain ⟨word, mem⟩ := List.exists_mem_of_ne_nil _ some
    have isWord : ∀ rule ∈ grown.rulesOf symbol, ∃ word, rule = .word word := by
      intro rule mem
      obtain ⟨word, -, same⟩ := List.mem_map.mp (has ▸ mem)
      exact ⟨word, same.symm⟩
    have noPhrase : ∀ rule, .phrase rule ∉ grown.rulesOf symbol := by
      intro rule mem
      obtain ⟨word, same⟩ := isWord _ mem
      cases same
    refine ⟨notReserved, List.cons_ne_nil _ _, ⟨.word word, has ▸ List.mem_map_of_mem mem, rfl⟩,
      ?_, fun rule mem => absurd mem (noPhrase rule), fun rule mem => absurd mem (noPhrase rule),
      unfilled, unvanished⟩
    intro rule mem
    obtain ⟨word, rfl⟩ := isWord rule mem
    rfl
  | @sequence name wordClass first more substitutes insertionCost checked =>
    have ofTerm : ∀ rule ∈ grown.rulesOf symbol, ∃ phrase, rule = .phrase phrase ∧
        phrase.origin = .authored ∧ ∃ term ∈ first :: more ++ substitutes,
          phrase.symbols = term.symbols := by
      intro rule mem
      obtain ⟨phrase, made, rfl⟩ := List.mem_map.mp (has ▸ mem)
      obtain ⟨authored, term, listed, slots⟩ := of_mem_sequenceRules made
      refine ⟨phrase, rfl, authored.1, term, listed, ?_⟩
      rw [PhraseRule.symbols, slots, List.map_map]
      exact List.map_id _
    have termOf : ∀ rule, .phrase rule ∈ grown.rulesOf symbol →
        ∃ term ∈ first :: more ++ substitutes, rule.symbols = term.symbols := by
      intro rule mem
      obtain ⟨phrase, same, -, term⟩ := ofTerm _ mem
      exact Rule.phrase.inj same ▸ term
    obtain ⟨count, items, -⟩ := of_checkTerm (checked first List.mem_cons_self)
    have nonempty : first.symbols ≠ [] := by
      intro none
      rw [none] at count
      exact absurd count (by decide)
    refine ⟨notReserved, h.displayOf_ne_nil nonempty items, ?_, ?_, ?_, ?_, unfilled, unvanished⟩
    · exact ⟨.phrase { first.rule with insertionCost }, has ▸ List.mem_cons_self, rfl⟩
    · intro rule mem
      obtain ⟨phrase, rfl, -⟩ := ofTerm rule mem
      rfl
    · intro rule mem child there
      obtain ⟨term, listed, symbols⟩ := termOf rule mem
      have items := (of_checkTerm (checked term listed)).2.1
      obtain ⟨part, found⟩ := Option.isSome_iff_exists.mp (items child (symbols ▸ there))
      obtain ⟨below, kept⟩ := before child part found
      exact ⟨below, kept ▸ rfl⟩
    · intro rule mem _
      obtain ⟨term, listed, symbols⟩ := termOf rule mem
      obtain ⟨count, -, wanted⟩ := of_checkTerm (checked term listed)
      have term : grammar.IsTerm wordClass rule.symbols := symbols ▸ ⟨count, wanted⟩
      exact term.mono fun child part found => (before child part found).2

theorem step (h : grammar.HasWellFormedItems) (sound : grammar.IsSound) {P : Rule κ → Prop}
    (step : Step P grammar grown) : grown.HasWellFormedItems := by
  have keeps : ∀ symbol item, grammar.item? symbol = some item →
      grown.IsWellFormed symbol item := fun symbol item found =>
    (step.keepsItem found).isWellFormed (h symbol item found)
  intro symbol item found
  cases step with
  | @define name rules entryItem fresh introduces valid =>
    obtain ⟨entry, there, here⟩ := Option.bind_eq_some_iff.mp found
    rcases of_entryOf?_push there with old | ⟨rfl, rfl⟩
    · exact keeps symbol item (by rw [item?, old, Option.bind_some, here])
    · obtain rfl : entryItem = some item := here
      have above : ∀ known : Symbol, known.index < grammar.size →
          (⟨grammar.size⟩ : Symbol) ≠ known := by
        rintro known inside rfl
        exact absurd inside (Nat.lt_irrefl _)
      refine h.isWellFormed_of_introduces introduces (rulesOf_eq there)
        ⟨above .start sound.start_lt, above .empty (lt_size_of_entryOf? sound.empty)⟩
        ?_ ?_ fun child part known => ?_
      · rw [zeroFiller?, there]
        rfl
      · rw [vanishedOf, there]
        rfl
      · have below := lt_size_of_item? known
        refine ⟨below, ?_⟩
        rw [item?, entryOf?_push_of_lt grammar _ below, ← item?, known]
  | @append other entry rule there _ none =>
    refine keeps symbol item ?_
    rw [appendRule_eq_setRules, item?_eq_of_bare (bare_setRules ..)] at found
    exact found
  | declare => exact keeps symbol item found
  | register => exact keeps symbol item found

end HasWellFormedItems

/-- A child that is an item has rules, so it never vanishes, and collapsing finds nothing to do. -/
theorem HasWellFormedItems.keepsItem_collapseRound (h : grammar.HasWellFormedItems)
    (sound : grammar.IsSound) (found : grammar.item? symbol = some item) :
    grammar.KeepsItem grammar.collapseRound.1 symbol := by
  obtain ⟨entry, known, -⟩ := Option.bind_eq_some_iff.mp found
  have idle : entry.affected grammar.vanishing = [] := by
    refine List.eq_nil_iff_forall_not_mem.mpr fun rule affected => ?_
    obtain ⟨mem, loses⟩ := Entry.mem_affected.mp affected
    obtain ⟨slot, there, vanishes⟩ := PhraseRule.hasVanishing_iff.mp loses
    rw [← rulesOf_eq known] at mem
    have some := ((h symbol item found).children rule mem _ (List.mem_map_of_mem there)).2
    obtain ⟨part, found⟩ := Option.isSome_iff_exists.mp some
    obtain ⟨_, inside, -⟩ := (h slot.symbol part found).some
    rw [(sound.of_vanishing vanishes).1] at inside
    exact absurd inside List.not_mem_nil
  refine .of_entryOf?_eq (collapseRound_entryOf?_of_idle known idle) fun child item here => ?_
  rw [(SameDeclarations.collapseRound grammar).item, here]

omit [Cost κ] in
theorem filter_authored_append {rules : List (Rule κ)} {added : List (PhraseRule κ)}
    (derived : ∀ rule ∈ added, rule.origin ≠ .authored) :
    (rules ++ added.map Rule.phrase).filter (·.origin = .authored) =
      rules.filter (·.origin = .authored) := by
  have none : (added.map Rule.phrase).filter (·.origin = .authored) = [] := by
    refine List.filter_eq_nil_iff.mpr fun rule mem => ?_
    obtain ⟨phrase, there, rfl⟩ := List.mem_map.mp mem
    exact of_decide_eq_true.mt (derived phrase there)
  rw [List.filter_append, none, List.append_nil]

theorem filter_authored_of_lengthens {nameOf : Symbol → String} {old now : List (Rule κ)}
    (h : Rule.Lengthens nameOf old now) :
    now.filter (·.origin = .authored) = old.filter (·.origin = .authored) := by
  obtain ⟨held, added, rfl, becomes, inserted⟩ := h
  have authored : ∀ rules : List (Rule κ), rules.filter (·.origin = .authored) =
      (rules.filter (·.origin ≠ .insertion)).filter (·.origin = .authored) := by
    intro rules
    rw [List.filter_filter]
    refine List.filter_congr fun rule _ => ?_
    by_cases origin : rule.origin = .authored <;> simp [origin]
  have derived : ∀ rule ∈ added, rule.origin ≠ .authored := by
    intro rule mem
    rw [inserted rule mem]
    exact nofun
  rw [filter_authored_append derived, authored held, filter_becomes becomes, ← authored]

theorem keepsItem_insertionRound (grammar : Grammar κ) (symbol : Symbol) :
    grammar.KeepsItem grammar.insertionRound.1 symbol := by
  refine .of_bare (bare_insertWith _) (filter_authored_of_lengthens
    ((Lengthened.refl grammar).insertionRound.rules symbol)) fun rule mem => ?_
  rcases of_mem_insertWith mem with old | ⟨made, rfl, offered⟩
  · exact .inl old
  · obtain ⟨before, there, inserted⟩ := mem_insertionOffers.mp offered
    obtain ⟨-, -, pair, place, filler, slots, -, rfl⟩ := PhraseRule.insertion?_eq_some.mp inserted
    exact .inr ⟨_, before, rfl, there, PhraseRule.symbols_eliding_subset slots⟩

theorem IsSound.keepsItem_transpose (sound : grammar.IsSound) (symbol : Symbol) :
    grammar.KeepsItem grammar.transpose.1 symbol := by
  obtain ⟨added, rules, transposed⟩ := (appended_transpose grammar).rules symbol
  refine .of_bare bare_transpose ?_ fun rule mem => ?_
  · have derived : ∀ rule ∈ added, rule.origin ≠ .authored := by
      intro rule mem
      rw [transposed rule mem]
      exact nofun
    rw [rules, filter_authored_append derived]
  · rcases (mem_rulesOf_transpose sound.apart).mp mem with old | ⟨made, rfl, transposed⟩
    · exact .inl old
    · obtain ⟨before, there, offered⟩ := transposed.offered
      obtain ⟨-, pair, cost, slots, -, rfl⟩ := PhraseRule.transposition?_eq_some.mp offered
      exact .inr ⟨_, before, rfl, there, PhraseRule.symbols_swapping_subset slots⟩

/-- Every item of the first grammar is the same item in the second, with the same authored rules. -/
def KeepsAuthored (grammar grown : Grammar κ) : Prop :=
  ∀ symbol item, grammar.item? symbol = some item → grown.item? symbol = some item ∧
    (grown.rulesOf symbol).filter (·.origin = .authored) =
      (grammar.rulesOf symbol).filter (·.origin = .authored)

omit [Cost κ] in
theorem KeepsAuthored.keep {middle : Grammar κ} (h : grammar.KeepsAuthored middle)
    (keeps : ∀ symbol item, middle.item? symbol = some item → middle.KeepsItem grown symbol) :
    grammar.KeepsAuthored grown := by
  intro symbol item found
  obtain ⟨there, same⟩ := h symbol item found
  have kept := keeps symbol item there
  exact ⟨kept.items symbol item there, kept.authored.trans same⟩

omit [Cost κ] in
theorem HasWellFormedItems.keep (h : grammar.HasWellFormedItems)
    (keeps : ∀ symbol item, grammar.item? symbol = some item → grammar.KeepsItem grown symbol)
    (items : ∀ symbol, grown.item? symbol = grammar.item? symbol) : grown.HasWellFormedItems := by
  intro symbol item found
  rw [items] at found
  exact (keeps symbol item found).isWellFormed (h symbol item found)

structure Continues (earlier grammar : Grammar κ) : Prop where
  sound : grammar.IsSound
  items : grammar.HasWellFormedItems
  authored : earlier.KeepsAuthored grammar

namespace Continues

variable {earlier : Grammar κ}

theorem step (h : earlier.Continues grammar) (step : Step (fun _ => True) grammar grown) :
    earlier.Continues grown where
  sound := h.sound.step step
  items := h.items.step h.sound step
  authored := h.authored.keep fun _ _ found => step.keepsItem found

theorem collapseRound (h : earlier.Continues grammar) :
    earlier.Continues grammar.collapseRound.1 where
  sound := h.sound.collapseRound
  items := h.items.keep (fun _ _ found => h.items.keepsItem_collapseRound h.sound found)
    (SameDeclarations.collapseRound grammar).item
  authored := h.authored.keep fun _ _ found => h.items.keepsItem_collapseRound h.sound found

theorem insertionRound (h : earlier.Continues grammar) :
    earlier.Continues grammar.insertionRound.1 where
  sound := h.sound.insertionRound
  items := h.items.keep (fun symbol _ _ => keepsItem_insertionRound grammar symbol)
    (item?_eq_of_bare (bare_insertWith _))
  authored := h.authored.keep fun symbol _ _ => keepsItem_insertionRound grammar symbol

theorem transpose (h : earlier.Continues grammar) : earlier.Continues grammar.transpose.1 where
  sound := h.sound.transpose
  items := h.items.keep (fun symbol _ _ => h.sound.keepsItem_transpose symbol)
    (item?_eq_of_bare bare_transpose)
  authored := h.authored.keep fun symbol _ _ => h.sound.keepsItem_transpose symbol

theorem derive (h : earlier.Continues grammar) : earlier.Continues grammar.derive.1 :=
  derive_induction collapseRound insertionRound transpose h

theorem performAll (operations : List (Operation κ)) (h : earlier.Continues grammar) :
    earlier.Continues (operations.foldl perform grammar) :=
  performAll_induction step (fun _ => derive) (fun operation _ => operation.supplies_true) h

omit [Cost κ] in
theorem refl (sound : grammar.IsSound) (items : grammar.HasWellFormedItems) :
    grammar.Continues grammar :=
  ⟨sound, items, fun _ _ found => ⟨found, rfl⟩⟩

end Continues

/-- After every run every item is well formed and matches some text, and no later operation changes
or removes an authored rule of it. -/
theorem run_isWellFormed (operations : List (Operation κ)) {symbol : Symbol} {item : VocabularyItem}
    (found : (run operations).item? symbol = some item) :
    (run operations).IsWellFormed symbol item ∧
      (run operations).productive.contains symbol = true ∧
      ∀ more : List (Operation κ), (run (operations ++ more)).item? symbol = some item ∧
        ((run (operations ++ more)).rulesOf symbol).filter (·.origin = .authored) =
          ((run operations).rulesOf symbol).filter (·.origin = .authored) := by
  have reached : (new : Grammar κ).Continues (run operations) :=
    (Continues.refl .new .new).performAll operations
  refine ⟨reached.items symbol item found, ?_, fun more => ?_⟩
  · exact reached.sound.productive_contains.mpr
      ⟨lt_size_of_item? found, reached.items.produces found⟩
  · have later := (Continues.refl reached.sound reached.items).performAll more
    rw [run_append]
    exact later.authored symbol item found

/-- A sequence of two words, the second of which may be left out, within another sequence. -/
def nestedSequence : List (Operation Float) :=
  [.addInvariable "go" ["go"] [] none, .addInvariable "out" ["out"] [] (some 1),
    .addSequence "leave" .invariable [⟨[⟨2⟩, ⟨3⟩], [], 0⟩] [] none,
    .addPairSequence .invariable ⟨4⟩ ⟨2⟩, .derive]

/-- The sequence inside has an insertion rule more than its author wrote, and is well formed. -/
theorem nestedSequence_isWellFormed :
    (run nestedSequence).item? ⟨4⟩ = some ⟨.invariable, true, [.fixed "go", .fixed "out"]⟩ ∧
      ((run nestedSequence).rulesOf ⟨4⟩).map Rule.origin = [.authored, .insertion] ∧
      (run nestedSequence).IsWellFormed ⟨4⟩ ⟨.invariable, true, [.fixed "go", .fixed "out"]⟩ ∧
      (run nestedSequence).productive.contains ⟨4⟩ = true ∧
      ((run (nestedSequence ++ [.derive])).rulesOf ⟨4⟩).filter (·.origin = .authored) =
        ((run nestedSequence).rulesOf ⟨4⟩).filter (·.origin = .authored) := by
  have found : (run nestedSequence).item? ⟨4⟩ =
      some ⟨.invariable, true, [.fixed "go", .fixed "out"]⟩ := by decide +kernel
  obtain ⟨formed, productive, kept⟩ := run_isWellFormed nestedSequence found
  exact ⟨found, by decide +kernel, formed, productive, (kept [.derive]).2⟩

end Grammar

end PhraseGrammar
