import PhraseGrammar.Proofs.Items
import PhraseGrammar.Proofs.Reaching

/-! What an audit finds of symbols is the same before and after a derivation. A child that vanishes
from the rules of a symbol is remembered with it, and a child that is left out matches some token
list, as all symbols do that have fillers. -/

namespace PhraseGrammar

variable {κ : Type} [Cost κ]

namespace Entry

variable {signatures : Signatures κ} {vanishing : Fillers κ} {entry : Entry κ} {child : Symbol}

omit [Cost κ] in
/-- A child of a rule of the entry, or one that vanished from them. -/
def HasChild (entry : Entry κ) (child : Symbol) : Prop :=
  child ∈ entry.vanished ∨ ∃ rule, .phrase rule ∈ entry.rules ∧ child ∈ rule.symbols

theorem hasChild_collapsed (other : child ≠ .empty) :
    (entry.collapsed signatures vanishing).HasChild child ↔ entry.HasChild child := by
  have vanished : child ∈ (entry.collapsed signatures vanishing).vanished ↔
      child ∈ entry.vanished ∨ child ∈ entry.gone vanishing := by
    rw [collapsed, mem_eraseReps, List.mem_mergeSort, List.mem_append]
  rw [HasChild, vanished, HasChild]
  constructor
  · rintro ((old | gone) | ⟨rule, mem, there⟩)
    · exact .inl old
    · obtain ⟨rule, affected, there, -, -⟩ := mem_gone.mp gone
      exact .inr ⟨rule, (mem_affected.mp affected).1, there⟩
    · rcases List.mem_append.mp mem with mem | mem
      · exact .inr ⟨rule, (mem_untouched.mp mem).1, there⟩
      · obtain ⟨before, affected, -, same⟩ := mem_remainders.mp mem
        obtain rfl := Rule.phrase.inj same
        exact .inr ⟨before, (mem_affected.mp affected).1,
          (PhraseRule.mem_symbols_remainder.mp there).1⟩
  · rintro (old | ⟨rule, mem, there⟩)
    · exact .inl (.inl old)
    · cases loses : rule.hasVanishing vanishing with
      | false => exact .inr ⟨rule, List.mem_append_left _ (mem_untouched.mpr ⟨mem, loses⟩), there⟩
      | true =>
        have affected := mem_affected.mpr ⟨mem, loses⟩
        cases goes : (vanishing.of? child).isSome with
        | true => exact .inl (.inr (mem_gone.mpr ⟨rule, affected, there, goes, other⟩))
        | false =>
          have stays := PhraseRule.mem_symbols_remainder.mpr ⟨there, goes⟩
          have some : rule.staying vanishing ≠ [] := by
            intro none
            rw [PhraseRule.symbols, PhraseRule.remainder_slots,
              PhraseRule.staying_eq_nil.mp none] at stays
            cases stays
          exact .inr ⟨rule.remainder vanishing, List.mem_append_right _
            (mem_remainders.mpr ⟨rule, affected, some, rfl⟩), stays⟩

end Entry

namespace PhraseRule

variable {rule : PhraseRule κ} {pair : Slot × Slot}

theorem symbols_eliding_subset (slots : rule.slots = [pair.1, pair.2]) {place : Place}
    {filler : Filler κ} : (rule.eliding pair place filler).symbols ⊆ rule.symbols := by
  intro symbol mem
  obtain rfl := List.mem_singleton.mp mem
  cases place with
  | first => exact (mem_symbols_of_pair slots).mpr (.inr rfl)
  | second => exact (mem_symbols_of_pair slots).mpr (.inl rfl)

theorem symbols_swapping_subset (slots : rule.slots = [pair.1, pair.2]) {cost : κ} :
    (rule.swapping pair cost).symbols ⊆ rule.symbols := by
  have swapped : (rule.swapping pair cost).slots = [pair.swap.1, pair.swap.2] := rfl
  exact fun symbol mem => (mem_symbols_of_pair slots).mpr
    ((mem_symbols_of_pair swapped).mp mem).symm

end PhraseRule

namespace Grammar

variable {grammar grown : Grammar κ} {symbol parent child : Symbol}

omit [Cost κ] in
theorem hasChild_iff :
    grammar.HasChild parent child ↔
      ∃ entry, grammar.entryOf? parent = some entry ∧ entry.HasChild child := by
  rw [HasChild, mem_childrenOf, vanishedOf, rulesOf]
  cases grammar.entryOf? parent with
  | none => simp
  | some entry => simp [Entry.HasChild]

/-- Each symbol has the same children in both grammars, the empty symbol apart. -/
def SameChildren (grammar grown : Grammar κ) : Prop :=
  ∀ parent child, child ≠ .empty → (grown.HasChild parent child ↔ grammar.HasChild parent child)

omit [Cost κ] in
theorem SameChildren.trans {last : Grammar κ} (h : grammar.SameChildren grown)
    (h' : grown.SameChildren last) : grammar.SameChildren last :=
  fun parent child other => (h' parent child other).trans (h parent child other)

theorem sameChildren_collapseRound (grammar : Grammar κ) :
    grammar.SameChildren grammar.collapseRound.1 := by
  intro parent child other
  rw [hasChild_iff, hasChild_iff]
  rcases collapseRound_cases grammar parent with same | ⟨before, found, collapsed⟩
  · rw [same]
  · simp only [found, collapsed, Option.some.injEq, exists_eq_left']
    exact Entry.hasChild_collapsed other

omit [Cost κ] in
theorem vanishedOf_eq_of_bare {other : Grammar κ} (h : grammar.bare = other.bare)
    (symbol : Symbol) : grammar.vanishedOf symbol = other.vanishedOf symbol := by
  have vanished : ∀ grammar : Grammar κ, grammar.bare.vanishedOf symbol =
      grammar.vanishedOf symbol := by
    intro grammar
    simp only [vanishedOf, entryOf?, bare, List.getElem?_map]
    cases grammar.entries[symbol.index]? <;> rfl
  rw [← vanished grammar, h, vanished other]

omit [Cost κ] in
theorem SameChildren.of_rules (bare : grown.bare = grammar.bare)
    (old : ∀ symbol, ∀ rule ∈ grammar.rulesOf symbol, ∃ now ∈ grown.rulesOf symbol,
      now.side = rule.side)
    (new : ∀ symbol rule, .phrase rule ∈ grown.rulesOf symbol → ∃ before,
      .phrase before ∈ grammar.rulesOf symbol ∧ rule.symbols ⊆ before.symbols) :
    grammar.SameChildren grown := by
  intro parent child _
  rw [HasChild, HasChild, mem_childrenOf, mem_childrenOf, vanishedOf_eq_of_bare bare]
  refine or_congr_right ⟨?_, ?_⟩
  · rintro ⟨rule, mem, child⟩
    obtain ⟨before, there, part⟩ := new parent rule mem
    exact ⟨before, there, part child⟩
  · rintro ⟨rule, mem, child⟩
    obtain ⟨word | now, there, side⟩ := old parent _ mem
    · cases side
    · exact ⟨now, there, Side.phrase.inj side ▸ child⟩

theorem sameChildren_insertionRound (grammar : Grammar κ) :
    grammar.SameChildren grammar.insertionRound.1 := by
  refine .of_rules (bare_insertWith _) (fun symbol rule mem => ?_) fun symbol rule mem => ?_
  · have lengthens := (Lengthened.refl grammar).insertionRound.rules symbol
    obtain ⟨now, there, becomes⟩ := lengthens.exists_becomes mem
    exact ⟨now, there, becomes.side_eq⟩
  · rcases of_mem_insertWith mem with old | ⟨made, same, offered⟩
    · exact ⟨rule, old, List.Subset.refl _⟩
    · obtain ⟨before, there, inserted⟩ := mem_insertionOffers.mp offered
      obtain ⟨-, -, pair, place, filler, slots, -, eliding⟩ :=
        PhraseRule.insertion?_eq_some.mp inserted
      obtain rfl : _ = rule := eliding.trans (Rule.phrase.inj same).symm
      exact ⟨before, there, PhraseRule.symbols_eliding_subset slots⟩

theorem IsSound.sameChildren_transpose (h : grammar.IsSound) :
    grammar.SameChildren grammar.transpose.1 := by
  refine .of_rules bare_transpose (fun symbol rule mem => ?_) fun symbol rule mem => ?_
  · exact ⟨rule, (mem_rulesOf_transpose h.apart).mpr (.inl mem), rfl⟩
  · rcases (mem_rulesOf_transpose h.apart).mp mem with old | ⟨made, same, transposed⟩
    · exact ⟨rule, old, List.Subset.refl _⟩
    · obtain ⟨before, there, offered⟩ := transposed.offered
      obtain ⟨-, pair, cost, slots, -, swapping⟩ := PhraseRule.transposition?_eq_some.mp offered
      obtain rfl : _ = rule := swapping.trans (Rule.phrase.inj same).symm
      exact ⟨before, there, PhraseRule.symbols_swapping_subset slots⟩

theorem IsSound.sameChildren_derive (h : grammar.IsSound) :
    grammar.SameChildren grammar.derive.1 := by
  refine (derive_induction (Q := fun derived => derived.IsSound ∧ grammar.SameChildren derived)
    (fun ⟨sound, same⟩ => ⟨sound.collapseRound, same.trans (sameChildren_collapseRound _)⟩)
    (fun ⟨sound, same⟩ => ⟨sound.insertionRound, same.trans (sameChildren_insertionRound _)⟩)
    (fun ⟨sound, same⟩ => ⟨sound.transpose, same.trans sound.sameChildren_transpose⟩)
    ⟨h, fun _ _ _ => .rfl⟩).2

omit [Cost κ] in
theorem IsSound.not_hasChild_empty (h : grammar.IsSound) : ¬ grammar.HasChild .empty child := by
  rw [hasChild_iff, h.empty]
  rintro ⟨entry, same, child⟩
  obtain rfl := Option.some.inj same
  rcases child with gone | ⟨rule, mem, -⟩
  · exact absurd gone List.not_mem_nil
  · exact absurd mem List.not_mem_nil

omit [Cost κ] in
theorem SameChildren.path (h : grammar.SameChildren grown) (sound : grammar.IsSound)
    (other : symbol ≠ .empty) (path : Relation.ReflTransGen grammar.HasChild .start symbol) :
    Relation.ReflTransGen grown.HasChild .start symbol := by
  induction path with
  | refl => exact .refl
  | @tail between last _ step ih =>
    have inner : between ≠ .empty := by
      rintro rfl
      exact sound.not_hasChild_empty step
    exact (ih inner).tail ((h between last other).mpr step)

omit [Cost κ] in
theorem SameChildren.symm (h : grammar.SameChildren grown) : grown.SameChildren grammar :=
  fun parent child other => (h parent child other).symm

omit [Cost κ] in
theorem SameChildren.reachable_contains (h : grammar.SameChildren grown) (sound : grammar.IsSound)
    (sound' : grown.IsSound) (other : symbol ≠ .empty) :
    grown.reachable.contains symbol = true ↔ grammar.reachable.contains symbol = true := by
  rw [sound'.reachable_contains, sound.reachable_contains]
  exact ⟨h.symm.path sound' other, h.path sound other⟩

omit [Cost κ] in
theorem IsFurnished.produces_of_fillable (h : grammar.IsFurnished)
    (fillable : grammar.Fillable symbol) : grammar.Produces symbol := by
  induction fillable with
  | empty => exact .empty rfl
  | zeroFiller some => exact .empty (by rw [matchesEmpty, some, Bool.or_true])
  | word mem _ => exact .word mem
  | declared mem _ _ costs => exact h.declared _ _ mem costs
  | composed mem _ _ _ _ ih =>
    refine .phrase mem fun slot there needed => ?_
    obtain ⟨position, found⟩ := List.mem_iff_getElem?.mp there
    exact ih slot position (List.mem_zipIdx_iff_getElem?.mpr found) needed

omit [Cost κ] in
theorem matchesEmpty_eq_of_bare {other : Grammar κ} (h : grammar.bare = other.bare)
    (symbol : Symbol) : grammar.matchesEmpty symbol = other.matchesEmpty symbol := by
  rw [matchesEmpty, zeroFiller?_eq_of_bare h, ← matchesEmpty]

/-- Insertion makes no symbol productive: of the pair whose rule is inserted both children match. -/
theorem IsFurnished.produces_of_insertionRound (h : grammar.IsFurnished)
    (produces : grammar.insertionRound.1.Produces symbol) : grammar.Produces symbol := by
  refine produces.least (fun known => ?_) (fun mem => ?_) fun {symbol rule} mem needed => ?_
  · exact .empty (matchesEmpty_eq_of_bare (bare_insertWith grammar.fillers) _ ▸ known)
  · rcases of_mem_insertWith mem with old | ⟨made, same, -⟩
    · exact .word old
    · exact nomatch same
  · rcases of_mem_insertWith mem with old | ⟨made, same, offered⟩
    · exact .phrase old needed
    · obtain ⟨before, there, inserted⟩ := mem_insertionOffers.mp offered
      obtain ⟨-, -, pair, place, filler, slots, chosen, eliding⟩ :=
        PhraseRule.insertion?_eq_some.mp inserted
      obtain rfl : _ = rule := eliding.trans (Rule.phrase.inj same).symm
      have stays : grammar.Produces (place.other.of pair).symbol :=
        needed { place.other.of pair with optional := false } List.mem_cons_self rfl
      have goes : (place.of pair).optional = false → grammar.Produces (place.of pair).symbol :=
        fun required => h.produces_of_fillable ((spreadsWithin_feeds grammar).fillers _
          ((PhraseRule.fills_of_cheaperPlace chosen).2 required))
      refine .phrase there fun slot child required => ?_
      rw [slots, List.mem_pair] at child
      cases place with
      | first =>
        rcases child with rfl | rfl
        · exact goes required
        · exact stays
      | second =>
        rcases child with rfl | rfl
        · exact stays
        · exact goes required

theorem IsSound.produces_of_transpose (h : grammar.IsSound)
    (produces : grammar.transpose.1.Produces symbol) : grammar.Produces symbol := by
  have bare : grammar.transpose.1.bare = grammar.bare := bare_transpose
  refine produces.least (fun known => ?_) (fun mem => ?_) fun {symbol rule} mem needed => ?_
  · exact .empty (matchesEmpty_eq_of_bare bare _ ▸ known)
  · rcases (mem_rulesOf_transpose h.apart).mp mem with old | ⟨made, same, -⟩
    · exact .word old
    · exact nomatch same
  · rcases (mem_rulesOf_transpose h.apart).mp mem with old | ⟨made, same, transposed⟩
    · exact .phrase old needed
    · obtain ⟨before, there, offered⟩ := transposed.offered
      obtain ⟨-, pair, cost, slots, -, swapping⟩ := PhraseRule.transposition?_eq_some.mp offered
      obtain rfl : _ = rule := swapping.trans (Rule.phrase.inj same).symm
      refine .phrase there fun slot mem required => needed slot ?_ required
      rw [slots, List.mem_pair] at mem
      exact List.mem_pair.mpr mem.symm

/-- Derivation makes no symbol productive, and keeps those that are. -/
theorem IsRegular.produces_derive (h : grammar.IsRegular) (symbol : Symbol) :
    grammar.derive.1.Produces symbol ↔ grammar.Produces symbol := by
  refine ⟨?_, (h.sound.derive_matches h.firm).1.produces⟩
  refine (derive_induction (Q := fun derived => derived.IsRegular ∧
    ∀ symbol, derived.Produces symbol → grammar.Produces symbol) (fun ⟨regular, back⟩ => ?_)
    (fun ⟨regular, back⟩ => ?_) (fun ⟨regular, back⟩ => ?_) ⟨h, fun _ => id⟩).2 symbol
  · exact ⟨regular.collapseRound, fun symbol produces =>
      back symbol (regular.sound.covers_collapseRound.produces produces)⟩
  · exact ⟨regular.insertionRound, fun symbol produces =>
      back symbol (regular.furnished.produces_of_insertionRound produces)⟩
  · exact ⟨regular.transpose, fun symbol produces =>
      back symbol (regular.sound.produces_of_transpose produces)⟩

omit [Cost κ] in
/-- Where the searches find the same, the empty symbol apart, the audit reports the same symbols. -/
theorem unused_congr (size : grown.size = grammar.size)
    (name : ∀ symbol, grown.nameOf symbol = grammar.nameOf symbol)
    (sizes : grown.reachable.size = grammar.reachable.size)
    (reachable : ∀ symbol, symbol ≠ .empty →
      grown.reachable.contains symbol = grammar.reachable.contains symbol)
    (productive : grown.productive = grammar.productive) :
    grown.unused.unreachable = grammar.unused.unreachable ∧
      grown.unused.unproductive = grammar.unused.unproductive := by
  have reserved : grown.reserved = grammar.reserved := by
    rw [Grammar.reserved, size, Grammar.reserved]
  have apart : ∀ {symbol}, symbol.index < grammar.reserved.size →
      grammar.reserved.contains symbol = false →
      grown.reachable.contains symbol = grammar.reachable.contains symbol := by
    intro symbol known free
    refine reachable symbol fun empty => ?_
    rw [Grammar.reserved, SymbolSet.size_ofTest] at known
    rw [contains_reserved.mpr ⟨known, .inr empty⟩] at free
    cases free
  have unreachable : grown.reachable.complement.diff grown.reserved =
      grammar.reachable.complement.diff grammar.reserved := by
    refine SymbolSet.eq_of_contains ?_ fun symbol => ?_
    · simp only [SymbolSet.size_diff, SymbolSet.size_complement, sizes, reserved]
    · rw [Bool.eq_iff_iff, SymbolSet.contains_diff, SymbolSet.contains_diff,
        SymbolSet.contains_complement, SymbolSet.contains_complement, sizes, reserved]
      refine and_congr_left ?_
      rintro ⟨known, free⟩
      rw [apart known free]
  have unproductive : (grown.productive.complement.diff grown.reserved).inter grown.reachable =
      (grammar.productive.complement.diff grammar.reserved).inter grammar.reachable := by
    refine SymbolSet.eq_of_contains ?_ fun symbol => ?_
    · simp only [SymbolSet.size_inter, productive, reserved, sizes]
    · rw [Bool.eq_iff_iff, SymbolSet.contains_inter, SymbolSet.contains_inter, productive, reserved,
        SymbolSet.contains_diff]
      refine and_congr_right ?_
      rintro ⟨-, known, free⟩
      rw [apart known free]
  simp only [unused, unreachable, unproductive, funext name, and_self]

/-- After every run with plain rules, derivation changes nothing in which symbols are reachable, the
empty symbol apart, and which are productive, whether it is refused or not. -/
theorem run_derive_findings (operations : List (Operation κ))
    (plain : ∀ operation ∈ operations, operation.IsPlain) :
    (∀ symbol, symbol ≠ .empty →
      ((run operations).derive.1.reachable.contains symbol = true ↔
        (run operations).reachable.contains symbol = true)) ∧
    (∀ symbol, (run operations).derive.1.productive.contains symbol = true ↔
      (run operations).productive.contains symbol = true) ∧
    (run operations).derive.1.unused.unreachable = (run operations).unused.unreachable ∧
    (run operations).derive.1.unused.unproductive = (run operations).unused.unproductive := by
  have regular := IsRegular.run plain
  generalize run operations = grammar at regular ⊢
  obtain ⟨size, name⟩ := derive_names grammar
  have after := regular.derive
  have reachable : ∀ symbol, symbol ≠ .empty → (grammar.derive.1.reachable.contains symbol = true ↔
      grammar.reachable.contains symbol = true) := fun symbol other =>
    regular.sound.sameChildren_derive.reachable_contains regular.sound after.sound other
  have productive : ∀ symbol, grammar.derive.1.productive.contains symbol = true ↔
      grammar.productive.contains symbol = true := by
    intro symbol
    rw [after.sound.productive_contains, regular.sound.productive_contains, size,
      regular.produces_derive]
  have sizes : grammar.derive.1.reachable.size = grammar.reachable.size := by
    rw [size_reachable, size_reachable, size]
  refine ⟨reachable, productive, unused_congr size name sizes (fun symbol other => ?_) ?_⟩
  · exact Bool.eq_iff_iff.mpr (reachable symbol other)
  · refine SymbolSet.eq_of_contains ?_ fun symbol => Bool.eq_iff_iff.mpr (productive symbol)
    rw [size_productive, size_productive, size]

/-- A sentence is a word, with padding before it that vanishes or with something after it that
matches nothing. A last symbol is never used. -/
def paddedWord : List (Operation Float) :=
  [.newSymbol ["padding"], .newSymbol ["word"], .newSymbol ["barren"], .newSymbol ["stray"],
    .addRule ⟨2⟩ (.phrase (.ofSymbols [.empty])), .addRule ⟨3⟩ (.word (.ofLiteral "hello")),
    .addRule .start (.phrase (.ofSymbols [⟨2⟩, ⟨3⟩])),
    .addRule .start (.phrase (.ofSymbols [⟨3⟩, ⟨4⟩]))]

/-- The padding is gone from all rules after derivation, and is found to be in use as before. -/
theorem paddedWord_derive_findings :
    (∀ operation ∈ paddedWord, operation.IsPlain) ∧
      (run paddedWord).derive.1.rulesOf .start =
        [.phrase (.ofSymbols [⟨3⟩, ⟨4⟩]),
          .phrase { PhraseRule.ofSymbols [⟨3⟩] with
            origin := .collapsed, elided := some ⟨0, ⟨2⟩, ⟨0, [], []⟩⟩ }] ∧
      (run paddedWord).derive.1.reachable.contains ⟨2⟩ = true ∧
      (run paddedWord).derive.1.productive.contains ⟨4⟩ = false ∧
      (run paddedWord).derive.1.unused.unreachable = ["[stray]"] ∧
      (run paddedWord).derive.1.unused.unproductive = ["[barren]"] := by
  have plain : ∀ operation ∈ paddedWord, operation.IsPlain := by
    simp only [paddedWord, List.forall_mem_cons]
    exact ⟨trivial, trivial, trivial, trivial, Rule.isPlain_ofSlots,
      Rule.isPlain_ofLiteral, Rule.isPlain_ofSlots, Rule.isPlain_ofSlots,
      List.forall_mem_nil _⟩
  obtain ⟨reachable, productive, unreachable, unproductive⟩ := run_derive_findings paddedWord plain
  refine ⟨plain, by decide +kernel, ?_, ?_, unreachable.trans ?_, unproductive.trans ?_⟩
  · exact (reachable ⟨2⟩ (by decide)).mpr (by decide +kernel)
  · exact Bool.eq_false_iff.mpr (mt (productive ⟨4⟩).mp (by decide +kernel))
  · decide +kernel
  · decide +kernel

end Grammar

end PhraseGrammar
