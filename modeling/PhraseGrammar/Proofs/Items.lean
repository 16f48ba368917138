import PhraseGrammar.Proofs.Accounting
import PhraseGrammar.Proofs.Producing
import PhraseGrammar.Proofs.Settling

/-! The items of the vocabulary. Each of them matches some token list, whatever is built and derived
in between, and of all phrases only those of items declare an insertion cost. -/

namespace PhraseGrammar

variable {κ : Type}

namespace Check

variable {ε α β : Type}

theorem of_mapM_ok {f : α → Except ε β} {xs : List α} {ys : List β} (h : xs.mapM f = .ok ys) :
    (∀ x ∈ xs, ∃ y ∈ ys, f x = .ok y) ∧ ∀ y ∈ ys, ∃ x ∈ xs, f x = .ok y := by
  induction xs generalizing ys with
  | nil =>
    rw [← Except.ok.inj h]
    exact ⟨fun _ mem => absurd mem List.not_mem_nil, fun _ mem => absurd mem List.not_mem_nil⟩
  | cons x xs ih =>
    rw [List.mapM_cons, bind_ok] at h
    obtain ⟨y, head, h⟩ := h
    obtain ⟨rest, tail, same⟩ := bind_ok.mp h
    obtain ⟨every, some⟩ := ih tail
    rw [← Except.ok.inj same]
    constructor
    · refine List.forall_mem_cons.mpr ⟨⟨y, List.mem_cons_self, head⟩, fun x mem => ?_⟩
      exact (every x mem).imp fun y found => found.imp_left (List.mem_cons_of_mem _)
    · refine List.forall_mem_cons.mpr ⟨⟨x, List.mem_cons_self, head⟩, fun y mem => ?_⟩
      exact (some y mem).imp fun x found => found.imp_left (List.mem_cons_of_mem _)

end Check

open Check

namespace Grammar

variable {grammar grown : Grammar κ} {symbol : Symbol}

theorem requireItem_ok {name : String} {wordClass : WordClass} :
    grammar.requireItem name symbol = .ok wordClass ↔
      ∃ item, grammar.item? symbol = some item ∧ item.wordClass = wordClass := by
  unfold requireItem item?
  rw [bind_ok]
  simp only [requireEntry_ok]
  cases grammar.entryOf? symbol with
  | none =>
    exact ⟨fun ⟨_, absent, _⟩ => (nomatch absent), fun ⟨_, absent, _⟩ => (nomatch absent)⟩
  | some entry =>
    simp only [Option.some.injEq, exists_eq_left', Option.bind_some]
    cases entry.item with
    | none => exact ⟨nofun, fun ⟨_, absent, _⟩ => (nomatch absent)⟩
    | some item =>
      simp only [Option.some.injEq, exists_eq_left']
      exact ⟨Except.ok.inj, congrArg Except.ok⟩

theorem of_checkTerm [Cost κ] {name : String} {wordClass : WordClass} {term : SequenceTerm κ}
    (h : grammar.checkTerm name wordClass term = .ok ()) :
    (term.symbols.length = 1 ∨ term.symbols.length = 2) ∧
      (∀ symbol ∈ term.symbols, (grammar.item? symbol).isSome = true) ∧
      ∃ symbol ∈ term.symbols, ∃ item, grammar.item? symbol = some item ∧
        item.wordClass = wordClass := by
  unfold checkTerm at h
  rw [then_ok, unless_ok, bind_ok] at h
  obtain ⟨-, length, classes, found, last⟩ := h
  obtain ⟨every, some⟩ := of_mapM_ok found
  have wanted : wordClass ∈ classes := by
    by_contra missing
    rw [if_neg (by simpa using missing)] at last
    exact throw_ne_ok last
  refine ⟨length, fun symbol mem => ?_, ?_⟩
  · obtain ⟨_, -, here⟩ := every symbol mem
    obtain ⟨item, item?, -⟩ := requireItem_ok.mp here
    exact item? ▸ rfl
  · obtain ⟨symbol, mem, here⟩ := some wordClass wanted
    exact ⟨symbol, mem, requireItem_ok.mp here⟩

/-- A grammar with more rules, and with more symbols that match the empty text, matches more. -/
theorem Covers.of_rules
    (empty : ∀ symbol, grammar.matchesEmpty symbol = true → grown.matchesEmpty symbol = true)
    (rules : ∀ symbol, ∀ rule ∈ grammar.rulesOf symbol, rule ∈ grown.rulesOf symbol) :
    grown.Covers grammar := fun _ _ matched =>
  matched.least ⟨fun known => .empty (empty _ known), fun mem => .word (rules _ _ mem),
    fun mem slots => .phrase (rules _ _ mem) slots⟩

theorem covers_push (grammar : Grammar κ) (entry : Entry κ) :
    (grammar.push entry).1.Covers grammar := by
  refine .of_rules (fun symbol known => ?_) fun symbol rule mem => ?_
  · simp only [matchesEmpty, Bool.or_eq_true] at known ⊢
    refine known.imp_right fun filled => ?_
    obtain ⟨filler, filled⟩ := Option.isSome_iff_exists.mp filled
    obtain ⟨old, found, -⟩ := Option.bind_eq_some_iff.mp filled
    have inside := entryOf?_isSome.mp (Option.isSome_iff_exists.mpr ⟨old, found⟩)
    rw [zeroFiller?, entryOf?_push_of_lt grammar entry inside, ← zeroFiller?, filled]
    rfl
  · rw [rulesOf, entryOf?_push_of_lt grammar entry (lt_size_of_mem_rulesOf mem), ← rulesOf]
    exact mem

theorem of_entryOf?_push {entry found : Entry κ}
    (h : (grammar.push entry).1.entryOf? symbol = some found) :
    grammar.entryOf? symbol = some found ∨ symbol = (grammar.push entry).2 ∧ found = entry := by
  by_cases old : symbol.index < grammar.size
  · exact .inl (entryOf?_push_of_lt grammar entry old ▸ h)
  · have size := size_push grammar entry
    have known := entryOf?_isSome.mp (Option.isSome_iff_exists.mpr ⟨found, h⟩)
    obtain rfl : symbol = (grammar.push entry).2 := congrArg Symbol.mk (by omega)
    rw [entryOf?_push_self] at h
    exact .inr ⟨rfl, (Option.some.inj h).symm⟩

variable [Cost κ]

theorem Step.covers {P : Rule κ → Prop} (step : Step P grammar grown) : grown.Covers grammar := by
  cases step with
  | define => exact covers_push _ _
  | append =>
    rw [appendRule_eq_setRules]
    exact covers_append _ _ _
  | declare => exact .of_rules (fun _ known => known) fun _ _ mem => mem
  | register => exact .of_rules (fun _ known => known) fun _ _ mem => mem

omit [Cost κ] in
/-- All items match some token list, and so do all symbols with a phrase that declares an insertion
cost. -/
structure IsFurnished (grammar : Grammar κ) : Prop where
  items : ∀ symbol, (grammar.item? symbol).isSome = true → grammar.Produces symbol
  declared : ∀ symbol rule, .phrase rule ∈ grammar.rulesOf symbol →
    rule.insertionCost.isSome = true → grammar.Produces symbol

namespace IsFurnished

omit [Cost κ] in
theorem new : (new : Grammar κ).IsFurnished where
  items symbol some := by
    obtain ⟨item, found⟩ := Option.isSome_iff_exists.mp some
    obtain ⟨entry, found, here⟩ := Option.bind_eq_some_iff.mp found
    have mem : entry ∈ [Entry.ofName SymbolName.start, Entry.ofName SymbolName.empty] :=
      List.mem_of_getElem? found
    rw [List.mem_pair] at mem
    rcases mem with rfl | rfl <;> exact nomatch here
  declared symbol rule mem := (AllRules.new (P := fun _ => False) symbol _ mem).elim

omit [Cost κ] in
theorem of_covers (h : grammar.IsFurnished) (covers : grown.Covers grammar)
    (items : ∀ symbol, grown.item? symbol = grammar.item? symbol)
    (declared : ∀ symbol rule, .phrase rule ∈ grown.rulesOf symbol →
      rule.insertionCost.isSome = true →
      ∃ old, .phrase old ∈ grammar.rulesOf symbol ∧ old.insertionCost.isSome = true) :
    grown.IsFurnished where
  items symbol some := covers.produces (h.items symbol (items symbol ▸ some))
  declared symbol rule mem costs := by
    obtain ⟨old, there, costs⟩ := declared symbol rule mem costs
    exact covers.produces (h.declared symbol old there costs)

/-- The symbol of a new item matches some token list: a word, or what the items of its first term
match. -/
theorem produces_push (h : grammar.IsFurnished) {P : Rule κ → Prop} {entry : Entry κ}
    (introduces : Introduces P grammar entry.item entry.rules) (some : entry.item.isSome = true) :
    (grammar.push entry).1.Produces (grammar.push entry).2 := by
  have rules := rulesOf_eq (entryOf?_push_self grammar entry)
  have covers := covers_push grammar entry
  generalize entry.item = item, entry.rules = rules' at introduces some rules
  cases introduces with
  | given => exact nomatch some
  | placeholder => exact nomatch some
  | words any =>
    obtain ⟨word, mem⟩ := List.exists_mem_of_ne_nil _ any
    have mem := List.mem_map_of_mem (f := Rule.word) mem
    exact .word (rules ▸ mem)
  | @sequence name wordClass first more substitutes insertionCost checked =>
    have mem : Rule.phrase { first.rule with insertionCost } ∈ (grammar.push entry).1.rulesOf
        (grammar.push entry).2 := rules ▸ List.mem_cons_self
    refine .phrase mem fun slot mem _ => ?_
    obtain ⟨child, there, rfl⟩ := List.mem_map.mp mem
    have items := (of_checkTerm (checked _ List.mem_cons_self)).2.1
    exact covers.produces (h.items child (items child there))

theorem push (h : grammar.IsFurnished) {entry : Entry κ}
    (introduces : Introduces Rule.IsPlain grammar entry.item entry.rules) :
    (grammar.push entry).1.IsFurnished := by
  have covers := covers_push grammar entry
  refine ⟨fun symbol some => ?_, fun symbol rule mem costs => ?_⟩
  · obtain ⟨item, known⟩ := Option.isSome_iff_exists.mp some
    obtain ⟨found, there, here⟩ := Option.bind_eq_some_iff.mp known
    rcases of_entryOf?_push there with old | ⟨rfl, rfl⟩
    · refine covers.produces (h.items symbol ?_)
      rw [item?, old, Option.bind_some, here]
      rfl
    · exact h.produces_push introduces (here ▸ rfl)
  · obtain ⟨found, there, listed⟩ := mem_rulesOf.mp mem
    rcases of_entryOf?_push there with old | ⟨rfl, rfl⟩
    · exact covers.produces (h.declared symbol rule (mem_rulesOf.mpr ⟨found, old, listed⟩) costs)
    · refine h.produces_push introduces ?_
      -- Without an item, the phrases of the symbol are as authors give them.
      generalize found.item = item, found.rules = rules at introduces listed
      cases introduces with
      | given plain =>
        have plain : rule.IsPlain := plain _ listed
        rw [plain.insertionCost] at costs
        cases costs
      | placeholder category => cases List.mem_singleton.mp listed
      | words => rfl
      | sequence => rfl

theorem step (h : grammar.IsFurnished) (step : Step Rule.IsPlain grammar grown) :
    grown.IsFurnished := by
  have covers := step.covers
  cases step with
  | define fresh introduces valid => exact h.push introduces
  | @append symbol entry given found other item plain valid =>
    rw [appendRule_eq_setRules] at covers ⊢
    refine h.of_covers covers (item?_eq_of_bare (bare_setRules ..)) fun here rule mem costs => ?_
    rcases (mem_rulesOf_append (entryOf?_isSome.mp (found ▸ rfl))).mp mem with old | ⟨-, rfl⟩
    · exact ⟨rule, old, costs⟩
    · have plain : rule.IsPlain := plain
      exact nomatch plain.insertionCost ▸ costs
  | declare signatures =>
    exact h.of_covers covers (fun _ => rfl) fun _ rule mem costs => ⟨rule, mem, costs⟩
  | register categories =>
    exact h.of_covers covers (fun _ => rfl) fun _ rule mem costs => ⟨rule, mem, costs⟩

theorem collapseRound (h : grammar.IsFurnished) (sound : grammar.IsSound) :
    grammar.collapseRound.1.IsFurnished := by
  refine h.of_covers sound.collapseRound_covers (SameDeclarations.collapseRound grammar).item
    fun symbol rule mem costs => ?_
  rcases of_phrase_mem_collapseRound mem with old | ⟨before, old, rfl, -⟩
  · exact ⟨rule, old, costs⟩
  · exact ⟨before, old, costs⟩

theorem insertionRound (h : grammar.IsFurnished) (firm : grammar.AllRules Rule.IsFirm) :
    grammar.insertionRound.1.IsFurnished := by
  refine h.of_covers (insertionRound_matches firm).1 (item?_eq_of_bare (bare_insertWith _))
    fun symbol rule mem costs => ?_
  rcases of_mem_insertWith mem with old | ⟨made, same, offered⟩
  · exact ⟨rule, old, costs⟩
  · obtain rfl := Rule.phrase.inj same
    obtain ⟨pair, -, inserted⟩ := mem_insertionOffers.mp offered
    obtain ⟨-, -, _, _, _, -, -, eliding⟩ := PhraseRule.insertion?_eq_some.mp inserted
    have none : (symbol, rule).2.insertionCost = .none := eliding ▸ rfl
    exact nomatch none ▸ costs

theorem transpose (h : grammar.IsFurnished) (sound : grammar.IsSound) :
    grammar.transpose.1.IsFurnished := by
  refine h.of_covers (transpose_matches grammar).1 (item?_eq_of_bare bare_transpose)
    fun symbol rule mem costs => ?_
  rcases (mem_rulesOf_transpose sound.apart).mp mem with old | ⟨made, same, transposed⟩
  · exact ⟨rule, old, costs⟩
  · obtain rfl := Rule.phrase.inj same
    obtain ⟨pair, -, offered⟩ := transposed.offered
    obtain ⟨-, _, _, -, -, swapping⟩ := PhraseRule.transposition?_eq_some.mp offered
    have none : rule.insertionCost = .none := swapping ▸ rfl
    exact nomatch none ▸ costs

end IsFurnished

omit [Cost κ] in
structure IsRegular (grammar : Grammar κ) : Prop where
  sound : grammar.IsSound
  firm : grammar.AllRules Rule.IsFirm
  furnished : grammar.IsFurnished

namespace IsRegular

theorem collapseRound (h : grammar.IsRegular) : grammar.collapseRound.1.IsRegular where
  sound := h.sound.collapseRound
  firm := h.firm.collapseRound fun _ _ => nofun
  furnished := h.furnished.collapseRound h.sound

theorem insertionRound (h : grammar.IsRegular) : grammar.insertionRound.1.IsRegular where
  sound := h.sound.insertionRound
  firm := h.firm.insertionRound fun place filler _ _ _ => PhraseRule.isFirm_eliding place filler
  furnished := h.furnished.insertionRound h.firm

theorem transpose (h : grammar.IsRegular) : grammar.transpose.1.IsRegular where
  sound := h.sound.transpose
  firm := h.firm.transpose fun _ _ _ _ => nofun
  furnished := h.furnished.transpose h.sound

theorem step (h : grammar.IsRegular) (step : Step Rule.IsPlain grammar grown) :
    grown.IsRegular where
  sound := h.sound.step (step.mono fun _ _ => trivial)
  firm := h.firm.step (fun _ authored => authored.isFirm)
    (step.mono fun _ plain => plain.isAuthored.isFirm)
  furnished := h.furnished.step step

theorem derive (h : grammar.IsRegular) : grammar.derive.1.IsRegular :=
  derive_induction collapseRound insertionRound transpose h

theorem run {operations : List (Operation κ)}
    (plain : ∀ operation ∈ operations, operation.IsPlain) : (run operations).IsRegular :=
  run_induction ⟨.new, .new, .new⟩ step (fun _ => derive) plain

end IsRegular

end Grammar

end PhraseGrammar
