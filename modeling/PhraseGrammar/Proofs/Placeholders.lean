import PhraseGrammar.Proofs.Contributions

/-! The registry of categories and the symbols of placeholders stay in step. Only the registration
of a category makes a symbol whose name is in braces, and the placeholder stays the first rule of
that symbol. -/

namespace PhraseGrammar

variable {κ : Type}

namespace SymbolName

theorem toList_placeholder (category : String) :
    (placeholder category).toList = '\x7b' :: (category.toList ++ ['\x7d']) := by
  rw [placeholder, String.toList_append, String.toList_append]
  rfl

theorem placeholder_injective {a b : String} (h : placeholder a = placeholder b) : a = b := by
  have same := congrArg String.toList h
  rw [toList_placeholder, toList_placeholder, List.cons.injEq, List.append_left_inj] at same
  exact String.toList_inj.mp same.2

theorem placeholder_ne_empty (category : String) : placeholder category ≠ "" := by
  intro same
  have none := congrArg String.toList same
  rw [toList_placeholder] at none
  cases none

theorem compose_ne_placeholder (parts : List String) (category : String) :
    compose parts ≠ placeholder category := by
  intro same
  have first := congrArg (fun name => name.toList.head?) same
  simp only [toList_placeholder, compose, String.toList_ofList, List.cons_append, List.head?_cons]
    at first
  cases first

end SymbolName

def Rule.Begins (word : WordRule κ) (rules : List (Rule κ)) : Prop :=
  rules.head? = some (.word word)

namespace Rule.Begins

variable {word : WordRule κ} {rules : List (Rule κ)}

theorem exists_cons (h : Begins word rules) : ∃ rest, rules = .word word :: rest :=
  List.head?_eq_some_iff.mp h

theorem append (h : Begins word rules) (more : List (Rule κ)) : Begins word (rules ++ more) := by
  obtain ⟨rest, rfl⟩ := h.exists_cons
  rfl

theorem collapsed [Cost κ] {entry : Entry κ} (h : Begins word entry.rules)
    (signatures : Signatures κ) (vanishing : Fillers κ) :
    Begins word (entry.collapsed signatures vanishing).rules := by
  obtain ⟨rest, same⟩ := h.exists_cons
  have untouched : Begins word (entry.untouched vanishing) := by
    rw [Entry.untouched, same]
    rfl
  exact untouched.append _

theorem lengthens [Cost κ] {nameOf : Symbol → String} {now : List (Rule κ)}
    (h : Begins word rules) (lengthens : Rule.Lengthens nameOf rules now) : Begins word now := by
  obtain ⟨held, added, rfl, becomes, -⟩ := lengthens
  obtain ⟨rest, rfl⟩ := h.exists_cons
  cases becomes with
  | cons head tail =>
    rw [head.eq_of_origin nofun]
    rfl

end Rule.Begins

namespace Grammar

variable {grammar grown : Grammar κ}

/-- The registry is in step with the symbols: each category in it is named after its placeholder and
has named entities, and each symbol with a name in braces is that of a category and begins with its
placeholder. -/
structure InStep [Cost κ] (grammar : Grammar κ) : Prop where
  category : ∀ name category, grammar.categories.get? name = some category →
    category.symbol = SymbolName.placeholder name ∧ category.entities ≠ [] ∧
      ∀ entity ∈ category.entities, entity.isNamed = true
  symbol : ∀ symbol entry name, grammar.entryOf? symbol = some entry →
    entry.name = SymbolName.placeholder name →
    grammar.categories.contains name = true ∧ Rule.Begins (.ofCategory name) entry.rules

variable [Cost κ]

/-- Derivation leaves a word in front of the rules of a symbol. -/
theorem begins_derive {word : WordRule κ} {symbol : Symbol}
    (h : Rule.Begins word (grammar.rulesOf symbol)) :
    Rule.Begins word (grammar.derive.1.rulesOf symbol) := by
  refine derive_induction (Q := fun derived => Rule.Begins word (derived.rulesOf symbol))
    (fun {before} held => ?_) (fun {before} held => ?_) (fun {before} held => ?_) h
  · rcases collapseRound_cases before symbol with same | ⟨entry, found, collapsed⟩
    · rw [rulesOf, same]
      exact held
    · rw [rulesOf_eq found] at held
      rw [rulesOf_eq collapsed]
      exact held.collapsed _ _
  · exact held.lengthens ((Lengthened.refl before).insertionRound.rules symbol)
  · obtain ⟨added, same, -⟩ := (appended_transpose before).rules symbol
    rw [same]
    exact held.append _

namespace InStep

theorem new : (new : Grammar κ).InStep where
  category _ _ found := by cases found
  symbol symbol entry name found named := by
    have mem := List.mem_of_getElem? found
    simp only [Grammar.new, List.mem_cons, List.not_mem_nil, or_false] at mem
    have first := congrArg (fun name => name.toList.head?) named
    simp only [SymbolName.toList_placeholder, List.head?_cons] at first
    rcases mem with rfl | rfl
    · have first : SymbolName.start.toList.head? = some '\x7b' := first
      exact absurd first (by decide)
    · have first : SymbolName.empty.toList.head? = some '\x7b' := first
      exact absurd first (by decide)

/-- An addition keeps the registry in step, if a symbol that it makes alone is not named in braces
and the entities of a category are named. -/
theorem extendBy {contribution : Contribution κ} (h : grammar.InStep)
    (composed : ∀ entry, contribution = .symbol entry →
      ∃ parts, entry.name = SymbolName.compose parts)
    (named : ∀ name entities, contribution = .category name entities →
      entities ≠ [] ∧ ∀ entity ∈ entities, entity.isNamed = true) :
    (grammar.extendBy contribution).InStep where
  category name category found := by
    cases contribution with
    | category new entities =>
      have found : (grammar.categories.insert new
        ⟨SymbolName.placeholder new, entities⟩).get? name = some category := found
      rw [Table.get?_insert] at found
      split at found
      case isTrue here =>
        obtain rfl := Option.some.inj found
        exact ⟨congrArg SymbolName.placeholder here.symm, named new entities rfl⟩
      case isFalse => exact h.category name category found
    | symbol entry => exact h.category name category found
    | rule symbol rule => exact h.category name category found
    | signature new signature => exact h.category name category found
  symbol symbol entry name found given := by
    by_cases known : symbol.index < grammar.size
    · obtain ⟨before, there⟩ := Option.isSome_iff_exists.mp (entryOf?_isSome.mpr known)
      obtain rfl := Option.some.inj (found.symm.trans (entryOf?_extendBy contribution there))
      obtain ⟨registered, begins⟩ := h.symbol symbol before name there given
      refine ⟨?_, begins.append _⟩
      cases contribution with
      | category new entities => exact (Table.contains_insert ..).mpr (.inr registered)
      | symbol entry => exact registered
      | rule symbol rule => exact registered
      | signature new signature => exact registered
    · have unknown : grammar.entryOf? symbol ≠ some entry :=
        fun found => known (lt_size_of_entryOf? found)
      cases contribution with
      | symbol new =>
        rcases of_entryOf?_push found with old | ⟨-, rfl⟩
        · exact absurd old unknown
        · obtain ⟨parts, made⟩ := composed entry rfl
          exact absurd (made.symm.trans given) (SymbolName.compose_ne_placeholder parts name)
      | category new entities =>
        have found : (grammar.push (.ofCategory new)).1.entryOf? symbol = some entry := found
        rcases of_entryOf?_push found with old | ⟨-, rfl⟩
        · exact absurd old unknown
        · obtain rfl := SymbolName.placeholder_injective given
          exact ⟨(Table.contains_insert ..).mpr (.inl rfl), rfl⟩
      | rule target rule =>
        have inside := lt_size_of_entryOf? found
        rw [Grammar.extendBy, appendRule, size_update] at inside
        exact absurd inside known
      | signature new signature => exact absurd found unknown

theorem derive (h : grammar.InStep) : grammar.derive.1.InStep := by
  have same := SameDeclarations.derive grammar
  refine ⟨fun name category found => h.category name category (same.categories ▸ found),
    fun symbol entry name found named => ?_⟩
  have known := lt_size_of_entryOf? found
  rw [same.size] at known
  obtain ⟨before, there⟩ := Option.isSome_iff_exists.mp (entryOf?_isSome.mpr known)
  have kept : entry.name = before.name := by
    have name := same.name symbol
    rwa [nameOf, nameOf, found, there] at name
  obtain ⟨registered, begins⟩ := h.symbol symbol before name there (kept.symm.trans named)
  refine ⟨same.categories ▸ registered, ?_⟩
  rw [← rulesOf_eq there] at begins
  rw [← rulesOf_eq found]
  exact begins_derive begins

end InStep

theorem isNamed_of_asked {operation : Operation κ} {made : Option Symbol} {name : String}
    {entities : List Entity}
    (asked : grammar.contribution? operation = some (.category name entities))
    (accepted : grammar.answer operation = .ok made) :
    entities ≠ [] ∧ ∀ entity ∈ entities, entity.isNamed = true := by
  unfold contribution? at asked
  split at asked
  all_goals simp only [Option.some.injEq, Contribution.category.injEq, reduceCtorEq] at asked
  obtain ⟨rfl, rfl⟩ := asked
  obtain ⟨⟨grown, symbol⟩, added, -⟩ := exists_of_map_ok accepted
  exact isNamed_of_addCategory_ok added

theorem InStep.run (operations : List (Operation κ)) : (run operations).InStep := by
  refine contributions_induction .new ?_ fun _ held => held.derive
  intro grammar operation made contribution _ _ accepted contributes held
  refine held.extendBy (fun entry same => ?_) fun name entities same => ?_
  · obtain ⟨parts, rules, item, rfl⟩ := entry_of_asked (same ▸ contributes.asked)
    exact ⟨parts, rfl⟩
  · exact isNamed_of_asked (same ▸ contributes.asked) accepted

/-- After every run the categories are those of which there is a symbol with the name in braces. A
category is named after that symbol and has entities, all of them named, and the symbol begins with
the placeholder of the category, which is never inserted. -/
theorem run_categories_inStep (operations : List (Operation κ)) (name : String) :
    ((run operations).categories.contains name = true ↔
      ((run operations).symbol? (SymbolName.placeholder name)).isSome = true) ∧
      ∀ category, (run operations).categories.get? name = some category →
        category.symbol = SymbolName.placeholder name ∧ category.entities ≠ [] ∧
        (∀ entity ∈ category.entities, entity.isNamed = true) ∧
        ∃ symbol word rest, (run operations).symbol? category.symbol = some symbol ∧
          (run operations).rulesOf symbol = .word word :: rest ∧
          word.literal = SymbolName.placeholder name ∧ word.category = some name ∧
          word.meaning = some (.entity name) ∧ word.insertionCost = none := by
  have sound := IsSound.run operations
  have inStep := InStep.run operations
  have placeholders := HasPlaceholders.run operations
  have found : (run operations).categories.contains name = true →
      ∃ symbol, (run operations).symbol? (SymbolName.placeholder name) = some symbol := by
    intro there
    obtain ⟨symbol, known, named⟩ := placeholders name there
    exact ⟨symbol, sound.symbol?_eq_some.mpr ⟨known, named⟩⟩
  have entry : ∀ {symbol}, (run operations).symbol? (SymbolName.placeholder name) = some symbol →
      ∃ entry, (run operations).entryOf? symbol = some entry ∧
        entry.name = SymbolName.placeholder name := by
    intro symbol found
    obtain ⟨known, named⟩ := sound.symbol?_eq_some.mp found
    obtain ⟨entry, there⟩ := Option.isSome_iff_exists.mp (entryOf?_isSome.mpr known)
    rw [nameOf, there] at named
    exact ⟨entry, there, named⟩
  refine ⟨⟨fun there => Option.isSome_iff_exists.mpr (found there), fun some => ?_⟩,
    fun category there => ?_⟩
  · obtain ⟨symbol, found⟩ := Option.isSome_iff_exists.mp some
    obtain ⟨entry, there, named⟩ := entry found
    exact (inStep.symbol symbol entry name there named).1
  · obtain ⟨named, some, entities⟩ := inStep.category name category there
    obtain ⟨symbol, found⟩ := found (by rw [Table.contains_eq_isSome, there]; rfl)
    obtain ⟨entry, owner, same⟩ := entry found
    obtain ⟨rest, rules⟩ := (inStep.symbol symbol entry name owner same).2.exists_cons
    exact ⟨named, some, entities, symbol, .ofCategory name, rest, named ▸ found,
      (rulesOf_eq owner).trans rules, rfl, rfl, rfl, rfl⟩

/-- A category, a rule that is added to its placeholder, and a category of the same name that is
refused. -/
def visitors : List (Operation Float) :=
  [.addCategory "person" [⟨"Ann", ["ann", "anna"]⟩], .addRule ⟨2⟩ (.word (.ofLiteral "someone")),
    .addCategory "person" [⟨"Bob", ["bob"]⟩], .derive]

theorem visitors_inStep :
    (run visitors).categories.get? "person" =
        some ⟨"\x7bperson\x7d", [⟨"Ann", ["ann", "anna"]⟩]⟩ ∧
      ((run visitors).symbol? (SymbolName.placeholder "person")).isSome = true ∧
      ∃ symbol word rest, (run visitors).symbol? "\x7bperson\x7d" = some symbol ∧
        (run visitors).rulesOf symbol = .word word :: rest ∧ word.category = some "person" := by
  have there : (run visitors).categories.get? "person" =
      some ⟨"\x7bperson\x7d", [⟨"Ann", ["ann", "anna"]⟩]⟩ := by decide +kernel
  obtain ⟨same, registered⟩ := run_categories_inStep visitors "person"
  obtain ⟨-, -, -, symbol, word, rest, found, rules, -, category, -⟩ := registered _ there
  exact ⟨there, same.mp (by decide +kernel), symbol, word, rest, found, rules, category⟩

end Grammar

end PhraseGrammar
