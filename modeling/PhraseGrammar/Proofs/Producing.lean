import Mathlib.Order.Bounds.Basic
import PhraseGrammar.Proofs.Matching
import PhraseGrammar.Proofs.Saturation

/-! What the search for productive symbols finds: the symbols that match some token list. A search
over the rules ends with the least larger set to which no rule adds a symbol. -/

namespace PhraseGrammar

variable {κ : Type}

theorem PhraseRule.mem_neededSymbols {rule : PhraseRule κ} {child : Symbol} :
    child ∈ rule.neededSymbols ↔
      ∃ slot ∈ rule.slots, slot.optional = false ∧ slot.symbol = child := by
  simp only [neededSymbols, List.mem_map, List.mem_filter, Bool.not_eq_true', and_assoc]

namespace Grammar

variable {grammar : Grammar κ} {set : SymbolSet} {symbol : Symbol} {S : Symbol → Prop}

/-- A symbol has a property as soon as all needed children of one of its rules do. -/
def Closes (grammar : Grammar κ) (S : Symbol → Prop) : Prop :=
  ∀ symbol rule, .phrase rule ∈ grammar.rulesOf symbol →
    (∀ child ∈ rule.neededSymbols, S child) → S symbol

theorem contains_closure (mem : set.contains symbol = true) :
    (grammar.closure set).contains symbol = true :=
  Demands.contains_search ((Search.growsTo_foldl_meet ⟨set, _⟩ _).found symbol mem)

theorem closure_least (closes : grammar.Closes S)
    (known : ∀ symbol, set.contains symbol = true → S symbol) :
    ∀ symbol, (grammar.closure set).contains symbol = true → S symbol := by
  refine closure_induction (P := fun now => ∀ symbol, now.contains symbol = true → S symbol)
    known ?_
  intro now symbol rule present needed held other mem
  rcases SymbolSet.of_contains_put mem with rfl | mem
  · exact closes other rule present fun child there => held child (needed child there)
  · exact held other mem

section Size

variable (size : grammar.size ≤ set.size)

include size

theorem index_lt_of_mem_demands :
    ∀ demand ∈ grammar.demands.all, demand.symbol.index < set.size := by
  intro demand mem
  obtain ⟨rule, present, -⟩ := mem_all_demands.mp mem
  exact Nat.lt_of_lt_of_le (lt_size_of_mem_rulesOf present) size

theorem closure_closes :
    grammar.Closes fun symbol => (grammar.closure set).contains symbol = true := by
  intro symbol rule present needed
  have watched := Demands.isWatched_start (index_lt_of_mem_demands size)
  exact watched.meets (Demands.isIndexed_ofList _) ⟨symbol, rule.neededSymbols⟩
    (mem_all_demands.mpr ⟨rule, present, rfl⟩) needed

/-- The closure is the least larger set to which no rule adds a symbol. -/
theorem closure_isLeast :
    IsLeast {S : Set Symbol | {symbol | set.contains symbol = true} ⊆ S ∧ grammar.Closes (· ∈ S)}
      {symbol | (grammar.closure set).contains symbol = true} :=
  ⟨⟨fun _ => contains_closure, closure_closes size⟩,
    fun _ ⟨larger, closes⟩ symbol => closure_least closes (fun _ mem => larger mem) symbol⟩

end Size

/-- A search takes no more turns than there are symbols, and finds the closure. -/
theorem iterate_turn_demands {turns : Nat} (enough : set.size ≤ turns) :
    grammar.demands.turn^[turns] (grammar.demands.start set) = ⟨grammar.closure set, []⟩ :=
  Demands.iterate_turn (Nat.le_trans (Nat.le_of_eq (Demands.remaining_start ..)) enough)

end Grammar

theorem exists_slotsMatch_iff {S : Symbol → List String → Prop} {slots : List Slot} :
    (∃ tokens, SlotsMatch S slots tokens) ↔
      ∀ slot ∈ slots, slot.optional = false → ∃ tokens, S slot.symbol tokens := by
  induction slots with
  | nil => exact ⟨fun _ _ mem => absurd mem List.not_mem_nil, fun _ => ⟨[], .nil⟩⟩
  | cons slot rest ih =>
    rw [List.forall_mem_cons, ← ih]
    constructor
    · rintro ⟨tokens, matched⟩
      cases matched with
      | skip optional more =>
        exact ⟨fun needed => absurd (needed.symm.trans optional) Bool.false_ne_true, _, more⟩
      | child first more => exact ⟨fun _ => ⟨_, first⟩, _, more⟩
    · rintro ⟨head, tokens, tail⟩
      cases optional : slot.optional with
      | true => exact ⟨tokens, .skip optional tail⟩
      | false =>
        obtain ⟨first, child⟩ := head optional
        exact ⟨first ++ tokens, .child child tail⟩

namespace Grammar

variable {grammar : Grammar κ} {symbol : Symbol}

def Produces (grammar : Grammar κ) (symbol : Symbol) : Prop :=
  ∃ tokens, grammar.Matches symbol tokens

theorem Produces.empty (known : grammar.matchesEmpty symbol = true) : grammar.Produces symbol :=
  ⟨[], .empty known⟩

theorem Produces.word {rule : WordRule κ} (mem : .word rule ∈ grammar.rulesOf symbol) :
    grammar.Produces symbol :=
  ⟨[rule.literal], .word mem⟩

theorem Produces.phrase {rule : PhraseRule κ} (mem : .phrase rule ∈ grammar.rulesOf symbol)
    (needed : ∀ slot ∈ rule.slots, slot.optional = false → grammar.Produces slot.symbol) :
    grammar.Produces symbol := by
  obtain ⟨tokens, slots⟩ := exists_slotsMatch_iff.mpr needed
  exact ⟨tokens, .phrase mem slots⟩

theorem Produces.least {S : Symbol → Prop}
    (empty : ∀ {symbol}, grammar.matchesEmpty symbol = true → S symbol)
    (word : ∀ {symbol rule}, .word rule ∈ grammar.rulesOf symbol → S symbol)
    (phrase : ∀ {symbol rule}, .phrase rule ∈ grammar.rulesOf symbol →
      (∀ slot ∈ rule.slots, slot.optional = false → S slot.symbol) → S symbol)
    (h : grammar.Produces symbol) : S symbol := by
  obtain ⟨tokens, matched⟩ := h
  refine matched.least (S := fun symbol _ => S symbol) ⟨empty, word, fun mem slots => ?_⟩
  refine phrase mem fun slot there needed => ?_
  exact (exists_slotsMatch_iff.mp ⟨_, slots⟩ slot there needed).elim fun _ => id

theorem Covers.produces {grown : Grammar κ} (h : grown.Covers grammar)
    (produces : grammar.Produces symbol) : grown.Produces symbol :=
  produces.imp fun tokens => h symbol tokens

theorem closes_produces (grammar : Grammar κ) : grammar.Closes grammar.Produces :=
  fun _ _ mem needed => .phrase mem fun _ there optional =>
    needed _ (PhraseRule.mem_neededSymbols.mpr ⟨_, there, optional, rfl⟩)

theorem contains_immediate :
    grammar.immediate.contains symbol = true ↔ symbol.index < grammar.size ∧
      (grammar.matchesEmpty symbol = true ∨ ∃ rule, .word rule ∈ grammar.rulesOf symbol) := by
  rw [immediate, SymbolSet.contains_ofTest, Bool.and_eq_true, Bool.or_eq_true, decide_eq_true_eq,
    List.any_eq_true]
  refine and_congr_right' (or_congr_right ⟨?_, ?_⟩)
  · rintro ⟨word | rule, mem, isWord⟩
    · exact ⟨word, mem⟩
    · cases isWord
  · rintro ⟨word, mem⟩
    exact ⟨.word word, mem, rfl⟩

theorem IsSound.lt_size_of_produces (h : grammar.IsSound) (produces : grammar.Produces symbol) :
    symbol.index < grammar.size := by
  refine produces.least (S := fun symbol => symbol.index < grammar.size) (fun {symbol} known => ?_)
    lt_size_of_mem_rulesOf (fun mem _ => lt_size_of_mem_rulesOf mem)
  rw [matchesEmpty, Bool.or_eq_true, decide_eq_true_eq, Option.isSome_iff_exists] at known
  rcases known with rfl | ⟨filler, found⟩
  · exact lt_size_of_entryOf? h.empty
  · obtain ⟨entry, there, -⟩ := Option.bind_eq_some_iff.mp found
    exact lt_size_of_entryOf? there

/-- The symbols that are found to be productive are those that match some token list. -/
theorem IsSound.productive_contains (h : grammar.IsSound) :
    grammar.productive.contains symbol = true ↔
      symbol.index < grammar.size ∧ grammar.Produces symbol := by
  have size : grammar.size ≤ grammar.immediate.size := (SymbolSet.size_ofTest ..).symm.le
  have known : ∀ {symbol}, symbol.index < grammar.size →
      (grammar.matchesEmpty symbol = true ∨ ∃ rule, .word rule ∈ grammar.rulesOf symbol) →
      grammar.productive.contains symbol = true :=
    fun inside immediate => contains_closure (contains_immediate.mpr ⟨inside, immediate⟩)
  constructor
  · intro found
    refine ⟨grammar.size_productive ▸ SymbolSet.lt_size_of_contains found, ?_⟩
    refine closure_least grammar.closes_produces (fun symbol mem => ?_) symbol found
    rcases (contains_immediate.mp mem).2 with empty | ⟨rule, word⟩
    · exact .empty empty
    · exact .word word
  · rintro ⟨-, produces⟩
    refine produces.least (S := fun symbol => grammar.productive.contains symbol = true)
      (fun empty => known (h.lt_size_of_produces (.empty empty)) (.inl empty))
      (fun word => known (lt_size_of_mem_rulesOf word) (.inr ⟨_, word⟩))
      fun {symbol rule} mem needed => ?_
    refine closure_closes size symbol rule mem fun child there => ?_
    obtain ⟨slot, place, optional, rfl⟩ := PhraseRule.mem_neededSymbols.mp there
    exact needed slot place optional

section Runs

variable [Cost κ]

/-- Of every run, the symbols that are found to be productive are exactly those that match some
token list. In general the search among the rules ends within as many turns as there are symbols, whatever
set it is for, and finds the least larger set to which no rule adds a symbol. -/
theorem run_productive_exact (operations : List (Operation κ)) :
    (∀ symbol, (run operations).productive.contains symbol = true ↔
      ∃ tokens, (run operations).Matches symbol tokens) ∧
    ∀ set : SymbolSet, (run operations).size ≤ set.size →
      (∀ turns, set.size ≤ turns →
        (run operations).demands.turn^[turns] ((run operations).demands.start set) =
          ⟨(run operations).closure set, []⟩) ∧
      IsLeast {S : Set Symbol | {symbol | set.contains symbol = true} ⊆ S ∧
          (run operations).Closes (· ∈ S)}
        {symbol | ((run operations).closure set).contains symbol = true} := by
  have sound := IsSound.run operations
  refine ⟨fun symbol => ?_, fun set size => ⟨fun _ => iterate_turn_demands, closure_isLeast size⟩⟩
  exact sound.productive_contains.trans (and_iff_right_of_imp sound.lt_size_of_produces)

end Runs

/-- A sentence is an echo, the same word twice, and a choice whose only child may be left out. That
child needs itself. -/
def echoAndChoice : List (Operation Float) :=
  [.newSymbol ["word"], .newSymbol ["echo"], .newSymbol ["loop"], .newSymbol ["choice"],
    .addRule ⟨2⟩ (.word (.ofLiteral "hello")), .addRule ⟨3⟩ (.phrase (.ofSymbols [⟨2⟩, ⟨2⟩])),
    .addRule ⟨4⟩ (.phrase (.ofSymbols [⟨4⟩, ⟨3⟩])),
    .addRule ⟨5⟩ (.phrase (.ofSlots [{ Slot.ofSymbol ⟨4⟩ with optional := true }])),
    .addRule .start (.phrase (.ofSymbols [⟨3⟩, ⟨5⟩]))]

/-- The sentence matches some token list and the child that needs itself none. From no symbol at all
a search finds the choice and nothing else. -/
theorem echoAndChoice_productive_exact :
    (∃ tokens, (run echoAndChoice).Matches .start tokens) ∧
      (¬∃ tokens, (run echoAndChoice).Matches ⟨4⟩ tokens) ∧
      (run echoAndChoice).size ≤ (SymbolSet.filled 6 false).size ∧
      (run echoAndChoice).demands.turn^[6] ((run echoAndChoice).demands.start (.filled 6 false)) =
        ⟨.ofTest 6 (· = ⟨5⟩), []⟩ ∧
      IsLeast {S : Set Symbol |
          {symbol | (SymbolSet.filled 6 false).contains symbol = true} ⊆ S ∧
            (run echoAndChoice).Closes (· ∈ S)}
        {symbol | ((run echoAndChoice).closure (.filled 6 false)).contains symbol = true} := by
  obtain ⟨productive, closure⟩ := run_productive_exact echoAndChoice
  have size : (run echoAndChoice).size ≤ (SymbolSet.filled 6 false).size := by decide +kernel
  have closed : (run echoAndChoice).closure (.filled 6 false) = .ofTest 6 (· = ⟨5⟩) := by
    decide +kernel
  obtain ⟨turns, least⟩ := closure (.filled 6 false) size
  refine ⟨(productive .start).mp (by decide +kernel), mt (productive ⟨4⟩).mpr (by decide +kernel),
    size, ?_, least⟩
  rw [turns 6 (by decide), closed]

end Grammar

end PhraseGrammar
