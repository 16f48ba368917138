import PhraseGrammar.Proofs.Items
import PhraseGrammar.Proofs.ListedTables

/-! Builders do all or nothing. One that is refused changes nothing; one that is not adds what its
arguments say, a single thing, and leaves all else alone. Rules that are added one after the other
stay up to the one that is refused. -/

namespace PhraseGrammar

variable {κ : Type}

inductive Contribution (κ : Type)
  /-- A new symbol. -/
  | symbol (entry : Entry κ)
  /-- An entry of the registry, and the symbol of its placeholder. -/
  | category (name : String) (entities : List Entity)
  /-- A rule behind those of a symbol that is there. -/
  | rule (symbol : Symbol) (rule : Rule κ)
  /-- A function or an argument. -/
  | signature (name : String) (signature : Signature κ)

def Contribution.rulesFor : Contribution κ → Symbol → List (Rule κ)
  | .symbol _, _ => []
  | .category _ _, _ => []
  | .rule target added, other => if other = target then [added] else []
  | .signature _ _, _ => []

namespace Entry

def ofWords (name : String) (wordClass : WordClass) (text : Wording) (rules : List (WordRule κ)) :
    Entry κ :=
  { Entry.ofName name with
    rules := rules.map .word
    item := some ⟨wordClass, false, [text]⟩ }

def ofTerms [Cost κ] (grammar : Grammar κ) (name : String) (wordClass : WordClass)
    (first : SequenceTerm κ) (more substitutes : List (SequenceTerm κ))
    (insertionCost : Option κ) : Entry κ :=
  { Entry.ofName name with
    rules := (sequenceRules (grammar.displayOf first.symbols) first more substitutes
      insertionCost).map .phrase
    item := some ⟨wordClass, true, grammar.displayOf first.symbols⟩ }

def ofCategory [Cost κ] (name : String) : Entry κ :=
  { Entry.ofName (SymbolName.placeholder name) with rules := [.word (.ofCategory name)] }

end Entry

def Operation.IsBuilder : Operation κ → Prop
  | .addRules _ => False
  | .derive => False
  | _ => True

namespace Grammar

variable [Cost κ]

/-- The addition for which the arguments of a builder ask. -/
def contribution? (grammar : Grammar κ) : Operation κ → Option (Contribution κ)
  | .newSymbol parts => some (.symbol (.ofName (SymbolName.compose parts)))
  | .addRule symbol rule => some (.rule symbol rule)
  | .addRules _ => none
  | .newPair rule =>
    some (.symbol { Entry.ofName (SymbolName.compose (rule.symbols.map grammar.nameOf)) with
      rules := [.phrase rule] })
  | .addVerb name forms spellings insertionCost =>
    some (.symbol (.ofWords (SymbolName.compose [name]) .verb (.verb forms)
      (verbRules forms spellings insertionCost)))
  | .addInvariable _ [] _ _ => none
  | .addInvariable name (first :: more) substitutes insertionCost =>
    some (.symbol (.ofWords (SymbolName.compose [name]) .invariable (.fixed first)
      (invariableRules first more substitutes insertionCost)))
  | .addPronoun name forms insertionCost =>
    some (.symbol (.ofWords (SymbolName.compose [name]) .pronoun (.pronoun forms)
      (pronounRules forms insertionCost)))
  | .addSequence _ _ [] _ _ => none
  | .addSequence name wordClass (first :: more) substitutes insertionCost =>
    some (.symbol (.ofTerms grammar (SymbolName.compose [name]) wordClass first more substitutes
      insertionCost))
  | .addPairSequence wordClass first second =>
    some (.symbol (.ofTerms grammar (SymbolName.compose
      [SymbolName.compose [grammar.nameOf first, grammar.nameOf second]]) wordClass
      ⟨[first, second], [], 0⟩ [] [] none))
  | .addCategory name entities => some (.category name entities)
  | .declareFunction name cost least greatest commutative =>
    some (.signature name ⟨cost, least, greatest, commutative, false⟩)
  | .declareArgument name cost => some (.signature name ⟨cost, 0, 0, false, true⟩)
  | .derive => none

def extendBy (grammar : Grammar κ) : Contribution κ → Grammar κ
  | .symbol entry => (grammar.push entry).1
  | .category name entities =>
    { (grammar.push (.ofCategory name)).1 with
      categories := grammar.categories.insert name ⟨SymbolName.placeholder name, entities⟩ }
  | .rule symbol rule => grammar.appendRule symbol rule
  | .signature name signature =>
    { grammar with signatures := grammar.signatures.insert name signature }

omit [Cost κ] in
def madeBy (grammar : Grammar κ) : Contribution κ → Option Symbol
  | .symbol _ => some ⟨grammar.size⟩
  | .category _ _ => some ⟨grammar.size⟩
  | .rule _ _ => none
  | .signature _ _ => none

omit [Cost κ] in
/-- Nothing of what is added is there: no symbol or registry entry of the name, no rule with the
right-hand side. -/
def Lacks (grammar : Grammar κ) : Contribution κ → Prop
  | .symbol entry => grammar.symbol? entry.name = none
  | .category name _ => grammar.symbol? (SymbolName.placeholder name) = none ∧
      grammar.categories.contains name = false
  | .rule symbol rule => symbol.index < grammar.size ∧
      ∀ present ∈ grammar.rulesOf symbol, present.side ≠ rule.side
  | .signature name _ => grammar.signatures.contains name = false

/-- What an operation answers: its fault, or the symbol that it makes if it makes one. -/
def answer (grammar : Grammar κ) : Operation κ → Except (Fault κ) (Option Symbol)
  | .newSymbol parts => (grammar.newSymbol parts).map (some ·.2)
  | .addRule symbol rule => (grammar.addRules [(symbol, rule)]).2.map fun _ => none
  | .addRules rules => (grammar.addRules rules).2.map fun _ => none
  | .newPair rule => (grammar.newPair rule).map (some ·.2)
  | .addVerb name forms spellings insertionCost =>
    (grammar.addVerb name forms spellings insertionCost).map (some ·.2)
  | .addInvariable name accepted substitutes insertionCost =>
    (grammar.addInvariable name accepted substitutes insertionCost).map (some ·.2)
  | .addPronoun name forms insertionCost =>
    (grammar.addPronoun name forms insertionCost).map (some ·.2)
  | .addSequence name wordClass accepted substitutes insertionCost =>
    (grammar.addSequence name wordClass accepted substitutes insertionCost).map (some ·.2)
  | .addPairSequence wordClass first second =>
    (grammar.addPairSequence wordClass first second).map (some ·.2)
  | .addCategory name entities => (grammar.addCategory name entities).map (some ·.2)
  | .declareFunction name cost least greatest commutative =>
    (grammar.signatures.declareFunction name cost least greatest commutative).map fun _ => none
  | .declareArgument name cost =>
    (grammar.signatures.declareArgument name cost).map fun _ => none
  | .derive => grammar.derive.2.map fun _ => none

variable {grammar grown : Grammar κ} {operation : Operation κ}

omit [Cost κ] in
theorem orKeep_of_map_error {α β : Type} {x : Except (Fault κ) (Grammar κ × α)}
    {f : Grammar κ × α → β} {fault : Fault κ} (h : x.map f = .error fault) :
    grammar.orKeep x = grammar := by
  cases x with
  | error _ => rfl
  | ok made => cases h

omit [Cost κ] in
theorem orKeepSignatures_of_map_error {β : Type} {x : Except (Fault κ) (Signatures κ × Meaning)}
    {f : Signatures κ × Meaning → β} {fault : Fault κ} (h : x.map f = .error fault) :
    grammar.orKeepSignatures x = grammar := by
  cases x with
  | error _ => rfl
  | ok made => cases h

theorem addRules_singleton (symbol : Symbol) (rule : Rule κ) :
    grammar.addRules [(symbol, rule)] =
      match grammar.addRule symbol rule with
      | .ok grown => (grown, .ok ())
      | .error fault => (grammar, .error fault) := by
  rw [addRules]
  cases grammar.addRule symbol rule <;> rfl

theorem perform_of_error (builder : operation.IsBuilder) {fault : Fault κ}
    (refused : grammar.answer operation = .error fault) : grammar.perform operation = grammar := by
  cases operation with
  | addRules rules => exact builder.elim
  | derive => exact builder.elim
  | addRule symbol rule =>
    rw [answer, addRules_singleton] at refused
    rw [perform, addRules_singleton]
    cases h : grammar.addRule symbol rule with
    | error _ => rfl
    | ok grown =>
      rw [h] at refused
      cases refused
  | newSymbol parts => exact orKeep_of_map_error refused
  | newPair rule => exact orKeep_of_map_error refused
  | addVerb => exact orKeep_of_map_error refused
  | addInvariable => exact orKeep_of_map_error refused
  | addPronoun => exact orKeep_of_map_error refused
  | addSequence => exact orKeep_of_map_error refused
  | addPairSequence => exact orKeep_of_map_error refused
  | addCategory => exact orKeep_of_map_error refused
  | declareFunction => exact orKeepSignatures_of_map_error refused
  | declareArgument => exact orKeepSignatures_of_map_error refused

omit [Cost κ] in
theorem exists_of_map_ok {α β : Type} {x : Except (Fault κ) α} {f : α → β} {y : β}
    (h : x.map f = .ok y) : ∃ result, x = .ok result ∧ f result = y := by
  cases x with
  | error fault => cases h
  | ok result => exact ⟨result, rfl, Except.ok.inj h⟩

omit [Cost κ] in
def HasPlaceholders (grammar : Grammar κ) : Prop :=
  ∀ name, grammar.categories.contains name = true → ∃ symbol : Symbol,
    symbol.index < grammar.size ∧ grammar.nameOf symbol = SymbolName.placeholder name

/-- An operation adds what it was asked for, and answers with the symbol made. -/
structure Contributes (grammar : Grammar κ) (operation : Operation κ) (made : Option Symbol)
    (contribution : Contribution κ) : Prop where
  asked : grammar.contribution? operation = some contribution
  lacks : grammar.Lacks contribution
  performed : grammar.perform operation = grammar.extendBy contribution
  made : made = grammar.madeBy contribution

variable {made : Option Symbol}

theorem contributes_symbol {x : Except (Fault κ) (Grammar κ × Symbol)} {entry : Entry κ}
    (asked : grammar.contribution? operation = some (.symbol entry))
    (performed : grammar.perform operation = grammar.orKeep x)
    (answered : grammar.answer operation = x.map (some ·.2))
    (defined : ∀ {grown symbol}, x = .ok (grown, symbol) →
      grammar.symbol? entry.name = none ∧ grammar.push entry = (grown, symbol))
    (accepted : grammar.answer operation = .ok made) :
    ∃ contribution, grammar.Contributes operation made contribution := by
  rw [answered] at accepted
  obtain ⟨⟨grown, symbol⟩, rfl, rfl⟩ := exists_of_map_ok accepted
  obtain ⟨fresh, pushed⟩ := defined rfl
  refine ⟨.symbol entry, asked, fresh, performed.trans ?_, ?_⟩
  · exact (congrArg Prod.fst pushed).symm
  · exact congrArg some (congrArg Prod.snd pushed).symm

theorem contributes_signature {x : Except (Fault κ) (Signatures κ × Meaning)} {name : String}
    {signature : Signature κ}
    (asked : grammar.contribution? operation = some (.signature name signature))
    (performed : grammar.perform operation = grammar.orKeepSignatures x)
    (answered : grammar.answer operation = x.map fun _ => none)
    (declared : ∀ {signatures meaning}, x = .ok (signatures, meaning) →
      grammar.signatures.contains name = false ∧
        grammar.signatures.insert name signature = signatures)
    (accepted : grammar.answer operation = .ok made) :
    ∃ contribution, grammar.Contributes operation made contribution := by
  rw [answered] at accepted
  obtain ⟨⟨signatures, meaning⟩, rfl, rfl⟩ := exists_of_map_ok accepted
  obtain ⟨fresh, same⟩ := declared rfl
  refine ⟨.signature name signature, asked, fresh, performed.trans ?_, rfl⟩
  rw [extendBy, same]
  rfl

theorem contributes_rule {symbol : Symbol} {rule : Rule κ}
    (accepted : grammar.answer (.addRule symbol rule) = .ok made) :
    ∃ contribution, grammar.Contributes (.addRule symbol rule) made contribution := by
  rw [answer, addRules_singleton] at accepted
  cases h : grammar.addRule symbol rule with
  | error fault =>
    rw [h] at accepted
    cases accepted
  | ok grown =>
    rw [h] at accepted
    obtain ⟨entry, found, -, -, valid, rfl⟩ := addRule_ok h
    have fresh : ∀ present ∈ grammar.rulesOf symbol, present.side ≠ rule.side :=
      rulesOf_eq found ▸ (validate_ok.mp valid).2
    refine ⟨.rule symbol rule, rfl, ⟨lt_size_of_entryOf? found, fresh⟩, ?_,
      (Except.ok.inj accepted).symm⟩
    rw [perform, addRules_singleton, h]
    rfl

/-- A category gets its entry in the registry together with a symbol. The name of the symbol is
new, so the entry is new as well. -/
theorem contributes_category (registered : grammar.HasPlaceholders) (sound : grammar.IsSound)
    {name : String} {entities : List Entity}
    (accepted : grammar.answer (.addCategory name entities) = .ok made) :
    ∃ contribution, grammar.Contributes (.addCategory name entities) made contribution := by
  obtain ⟨⟨grown, symbol⟩, h, rfl⟩ := exists_of_map_ok accepted
  obtain ⟨before, defined, rfl⟩ := addCategory_ok h
  obtain ⟨fresh, -, pushed⟩ := define_ok defined
  have unregistered : grammar.categories.contains name = false := by
    refine Bool.eq_false_iff.mpr fun there => ?_
    obtain ⟨symbol, known, named⟩ := registered name there
    rw [sound.symbol?_eq_some.mpr ⟨known, named⟩] at fresh
    cases fresh
  obtain rfl : (grammar.push (.ofCategory name)).1 = before := congrArg Prod.fst pushed
  refine ⟨.category name entities, rfl, ⟨fresh, unregistered⟩, ?_, ?_⟩
  · rw [perform, h]
    rfl
  · exact congrArg some (congrArg Prod.snd pushed).symm

/-- A builder that is accepted adds what its arguments ask for. -/
theorem exists_contributes (registered : grammar.HasPlaceholders) (sound : grammar.IsSound)
    (builder : operation.IsBuilder) (accepted : grammar.answer operation = .ok made) :
    ∃ contribution, grammar.Contributes operation made contribution := by
  cases operation with
  | addRules rules => exact builder.elim
  | derive => exact builder.elim
  | addRule symbol rule => exact contributes_rule accepted
  | addCategory name entities => exact contributes_category registered sound accepted
  | newSymbol parts => exact contributes_symbol rfl rfl rfl newSymbol_ok accepted
  | newPair rule =>
    refine contributes_symbol rfl rfl rfl (fun h => ?_) accepted
    obtain ⟨fresh, -, pushed⟩ := define_ok (newPair_ok h)
    exact ⟨fresh, pushed⟩
  | addVerb name forms spellings insertionCost =>
    refine contributes_symbol rfl rfl rfl (fun h => ?_) accepted
    obtain ⟨fresh, -, pushed⟩ := define_ok (addVerb_ok h)
    exact ⟨fresh, pushed⟩
  | addPronoun name forms insertionCost =>
    refine contributes_symbol rfl rfl rfl (fun h => ?_) accepted
    obtain ⟨fresh, -, pushed⟩ := define_ok (addPronoun_ok h)
    exact ⟨fresh, pushed⟩
  | addInvariable name texts substitutes insertionCost =>
    cases texts with
    | nil =>
      obtain ⟨result, h, -⟩ := exists_of_map_ok accepted
      obtain ⟨first, more, none, -⟩ := addInvariable_ok h
      cases none
    | cons first more =>
      refine contributes_symbol rfl rfl rfl (fun h => ?_) accepted
      obtain ⟨text, texts, same, defined⟩ := addInvariable_ok h
      obtain ⟨rfl, rfl⟩ := List.cons.inj same
      obtain ⟨fresh, -, pushed⟩ := define_ok defined
      exact ⟨fresh, pushed⟩
  | addSequence name wordClass terms substitutes insertionCost =>
    cases terms with
    | nil =>
      obtain ⟨result, h, -⟩ := exists_of_map_ok accepted
      obtain ⟨first, more, none, -⟩ := addSequence_ok h
      cases none
    | cons first more =>
      refine contributes_symbol rfl rfl rfl (fun h => ?_) accepted
      obtain ⟨term, terms, same, -, defined⟩ := addSequence_ok h
      obtain ⟨rfl, rfl⟩ := List.cons.inj same
      obtain ⟨fresh, -, pushed⟩ := define_ok defined
      exact ⟨fresh, pushed⟩
  | addPairSequence wordClass first second =>
    refine contributes_symbol rfl rfl rfl (fun h => ?_) accepted
    obtain ⟨term, more, terms, -, defined⟩ := addSequence_ok (addPairSequence_ok h)
    obtain ⟨rfl, rfl⟩ := List.cons.inj terms
    obtain ⟨fresh, -, pushed⟩ := define_ok defined
    exact ⟨fresh, pushed⟩
  | declareFunction name cost least greatest commutative =>
    exact contributes_signature rfl rfl rfl Signatures.declareFunction_ok accepted
  | declareArgument name cost =>
    exact contributes_signature rfl rfl rfl Signatures.declareArgument_ok accepted

theorem entry_of_asked {entry : Entry κ}
    (asked : grammar.contribution? operation = some (.symbol entry)) : ∃ parts rules item,
      entry = { Entry.ofName (SymbolName.compose parts) with rules, item } := by
  unfold contribution? at asked
  split at asked
  all_goals simp only [Option.some.injEq, Contribution.symbol.injEq, reduceCtorEq] at asked
  all_goals exact ⟨_, _, _, asked.symm⟩

/-- A symbol that is there keeps its entry, but for the rule that is added to it. -/
theorem entryOf?_extendBy (contribution : Contribution κ) {symbol : Symbol} {entry : Entry κ}
    (found : grammar.entryOf? symbol = some entry) :
    (grammar.extendBy contribution).entryOf? symbol =
      some { entry with rules := entry.rules ++ contribution.rulesFor symbol } := by
  have known := lt_size_of_entryOf? found
  cases contribution with
  | symbol new =>
    rw [extendBy, entryOf?_push_of_lt grammar new known, found, Contribution.rulesFor,
      List.append_nil]
  | category name entities =>
    have pushed := entryOf?_push_of_lt grammar (.ofCategory name) known
    rw [Contribution.rulesFor, List.append_nil, ← found, ← pushed]
    rfl
  | rule target rule =>
    rw [extendBy, appendRule, Contribution.rulesFor]
    by_cases here : symbol = target
    · subst here
      rw [entryOf?_update_self, found, if_pos rfl]
      rfl
    · rw [entryOf?_update_of_ne grammar here, found, if_neg here, List.append_nil]
  | signature name signature =>
    rw [Contribution.rulesFor, List.append_nil, ← found]
    rfl

omit [Cost κ] in
theorem symbol?_of_names (sound : grammar.IsSound) (sound' : grown.IsSound)
    (kept : ∀ symbol : Symbol, symbol.index < grammar.size →
      symbol.index < grown.size ∧ grown.nameOf symbol = grammar.nameOf symbol)
    {name : String} {symbol : Symbol} (found : grammar.symbol? name = some symbol) :
    grown.symbol? name = some symbol := by
  obtain ⟨known, named⟩ := sound.symbol?_eq_some.mp found
  obtain ⟨inside, same⟩ := kept symbol known
  exact sound'.symbol?_eq_some.mpr ⟨inside, same.trans named⟩

/-- What was there is there as it was, but for the rule that an addition puts to a symbol. -/
structure KeepsBeside (grammar : Grammar κ) (contribution : Contribution κ) (grown : Grammar κ) :
    Prop where
  entry : ∀ symbol entry, grammar.entryOf? symbol = some entry → grown.entryOf? symbol =
    some { entry with rules := entry.rules ++ contribution.rulesFor symbol }
  symbol : ∀ name symbol, grammar.symbol? name = some symbol → grown.symbol? name = some symbol
  signature : ∀ name signature, grammar.signatures.get? name = some signature →
    grown.signatures.get? name = some signature
  category : ∀ name category, grammar.categories.get? name = some category →
    grown.categories.get? name = some category

theorem nameOf_extendBy (contribution : Contribution κ) {symbol : Symbol}
    (known : symbol.index < grammar.size) :
    symbol.index < (grammar.extendBy contribution).size ∧
      (grammar.extendBy contribution).nameOf symbol = grammar.nameOf symbol := by
  obtain ⟨entry, found⟩ := Option.isSome_iff_exists.mp (entryOf?_isSome.mpr known)
  have kept := entryOf?_extendBy contribution found
  refine ⟨lt_size_of_entryOf? kept, ?_⟩
  rw [nameOf, nameOf, kept, found]
  rfl

theorem keepsBeside_extendBy {contribution : Contribution κ} (lacks : grammar.Lacks contribution)
    (sound : grammar.IsSound) (sound' : (grammar.extendBy contribution).IsSound) :
    grammar.KeepsBeside contribution (grammar.extendBy contribution) where
  entry symbol entry found := entryOf?_extendBy contribution found
  symbol name symbol found :=
    symbol?_of_names sound sound' (fun _ known => nameOf_extendBy contribution known) found
  signature name signature found := by
    cases contribution with
    | signature new declared =>
      have other : name ≠ new := by
        rintro rfl
        have lacks : grammar.signatures.contains name = false := lacks
        rw [Table.contains_eq_isSome, found] at lacks
        cases lacks
      rw [extendBy, Table.get?_insert, if_neg other, found]
    | _ => exact found
  category name category found := by
    cases contribution with
    | category new entities =>
      have other : name ≠ new := by
        rintro rfl
        obtain ⟨-, lacks⟩ := lacks
        rw [Table.contains_eq_isSome, found] at lacks
        cases lacks
      rw [extendBy, Table.get?_insert, if_neg other, found]
    | _ => exact found

/-- What a grammar has of an addition to another one: the entry of the next symbol, a last rule of
one symbol, or what is found under a name. Of all else it has as much as the other one. -/
inductive Gains (grammar grown : Grammar κ) : Contribution κ → Prop
  | symbol {entry : Entry κ} : grown.size = grammar.size + 1 →
      grown.entryOf? ⟨grammar.size⟩ = some entry →
      grown.signatures = grammar.signatures → grown.categories = grammar.categories →
      Gains grammar grown (.symbol entry)
  | category {name : String} {entities : List Entity} : grown.size = grammar.size + 1 →
      grown.entryOf? ⟨grammar.size⟩ = some
        { name := SymbolName.placeholder name
          rules := [.word
            { literal := SymbolName.placeholder name
              text := none
              tense := none
              insertionCost := none
              penalty := 0
              meaning := some (.entity name)
              category := some name
              range := none }]
          item := none
          zeroFiller := none
          vanished := [] } →
      grown.signatures = grammar.signatures →
      (∀ other, grown.categories.get? other =
        if other = name then some ⟨SymbolName.placeholder name, entities⟩
        else grammar.categories.get? other) →
      Gains grammar grown (.category name entities)
  | rule {symbol : Symbol} {rule : Rule κ} : grown.size = grammar.size →
      grown.rulesOf symbol = grammar.rulesOf symbol ++ [rule] →
      (∀ other, other ≠ symbol → grown.entryOf? other = grammar.entryOf? other) →
      grown.signatures = grammar.signatures → grown.categories = grammar.categories →
      Gains grammar grown (.rule symbol rule)
  | signature {name : String} {signature : Signature κ} : grown.entries = grammar.entries →
      (∀ other, grown.signatures.get? other =
        if other = name then some signature else grammar.signatures.get? other) →
      grown.categories = grammar.categories →
      Gains grammar grown (.signature name signature)

theorem gains_extendBy {contribution : Contribution κ} (lacks : grammar.Lacks contribution) :
    grammar.Gains (grammar.extendBy contribution) contribution := by
  cases contribution with
  | symbol entry =>
    exact .symbol (size_push grammar entry) (entryOf?_push_self grammar entry) rfl rfl
  | category name entities =>
    have size : (grammar.extendBy (.category name entities)).size = grammar.size + 1 :=
      size_push grammar (.ofCategory name)
    have found : (grammar.extendBy (.category name entities)).entryOf? ⟨grammar.size⟩ =
        some (.ofCategory name) := entryOf?_push_self grammar (.ofCategory name)
    exact .category size found rfl (Table.get?_insert grammar.categories name _)
  | rule symbol rule =>
    obtain ⟨entry, found⟩ := Option.isSome_iff_exists.mp (entryOf?_isSome.mpr lacks.1)
    have grown := entryOf?_extendBy (.rule symbol rule) found
    rw [Contribution.rulesFor, if_pos rfl] at grown
    refine .rule (size_update ..) ?_ (fun other apart => entryOf?_update_of_ne grammar apart _)
      rfl rfl
    rw [rulesOf_eq grown, rulesOf_eq found]
  | signature name signature =>
    exact .signature rfl (Table.get?_insert grammar.signatures name signature) rfl

omit [Cost κ] in
def withRules (grammar : Grammar κ) (rules : List (Symbol × Rule κ)) : Grammar κ :=
  rules.foldl (fun grown source => grown.appendRule source.1 source.2) grammar

omit [Cost κ] in
theorem bare_withRules (grammar : Grammar κ) (rules : List (Symbol × Rule κ)) :
    (grammar.withRules rules).bare = grammar.bare :=
  List.foldlRecOn (motive := fun grown : Grammar κ => grown.bare = grammar.bare) rules _ rfl
    fun grown same source _ => by rw [appendRule_eq_setRules, bare_setRules, same]

/-- A chain stops at the first rule that is refused: those before it are appended, and nothing
else is done. -/
theorem addRules_cases (rules : List (Symbol × Rule κ)) (grammar : Grammar κ) :
    grammar.addRules rules = (grammar.withRules rules, .ok ()) ∨
      ∃ before source after fault, rules = before ++ source :: after ∧
        grammar.addRules before = (grammar.withRules before, .ok ()) ∧
        (grammar.withRules before).addRule source.1 source.2 = .error fault ∧
        grammar.addRules rules = (grammar.withRules before, .error fault) := by
  induction rules generalizing grammar with
  | nil => exact .inl rfl
  | cons first rest ih =>
    obtain ⟨symbol, rule⟩ := first
    simp only [addRules]
    cases h : grammar.addRule symbol rule with
    | error fault => exact .inr ⟨[], (symbol, rule), rest, fault, rfl, rfl, h, rfl⟩
    | ok grown =>
      obtain ⟨-, -, -, -, -, rfl⟩ := addRule_ok h
      rcases ih (grammar.appendRule symbol rule) with
        all | ⟨before, source, after, fault, rfl, done, refused, stopped⟩
      · exact .inl all
      · refine .inr ⟨(symbol, rule) :: before, source, after, fault, rfl, ?_, refused, stopped⟩
        rw [addRules, h]
        exact done

namespace HasPlaceholders

omit [Cost κ] in
theorem new : (new : Grammar κ).HasPlaceholders := fun _ there => nomatch there

omit [Cost κ] in
theorem of_names (h : grammar.HasPlaceholders)
    (kept : ∀ symbol : Symbol, symbol.index < grammar.size →
      symbol.index < grown.size ∧ grown.nameOf symbol = grammar.nameOf symbol)
    (categories : ∀ name, grown.categories.contains name = true →
      grammar.categories.contains name = true ∨ ∃ symbol : Symbol,
        symbol.index < grown.size ∧ grown.nameOf symbol = SymbolName.placeholder name) :
    grown.HasPlaceholders := by
  intro name there
  rcases categories name there with old | new
  · obtain ⟨symbol, known, named⟩ := h name old
    obtain ⟨inside, same⟩ := kept symbol known
    exact ⟨symbol, inside, same.trans named⟩
  · exact new

theorem extendBy (h : grammar.HasPlaceholders) (contribution : Contribution κ) :
    (grammar.extendBy contribution).HasPlaceholders := by
  refine h.of_names (fun _ known => nameOf_extendBy contribution known) fun name there => ?_
  cases contribution with
  | category new entities =>
    rcases (Table.contains_insert ..).mp there with rfl | old
    · have found := entryOf?_push_self grammar (.ofCategory name)
      refine .inr ⟨(grammar.push (.ofCategory name)).2, lt_size_of_entryOf? found, ?_⟩
      exact congrArg (fun entry => (entry.map Entry.name).getD SymbolName.unknown) found
    · exact .inl old
  | symbol => exact .inl there
  | rule => exact .inl there
  | signature => exact .inl there

omit [Cost κ] in
theorem of_bare (h : grammar.HasPlaceholders) (bare : grown.bare = grammar.bare) :
    grown.HasPlaceholders := by
  have same := SameDeclarations.of_bare bare
  refine h.of_names (fun symbol known => ⟨same.size ▸ known, same.name symbol⟩) fun name there => ?_
  rw [same.categories] at there
  exact .inl there

theorem perform (h : grammar.HasPlaceholders) (sound : grammar.IsSound)
    (operation : Operation κ) : (grammar.perform operation).HasPlaceholders := by
  by_cases builder : operation.IsBuilder
  · cases answered : grammar.answer operation with
    | error fault =>
      rw [perform_of_error builder answered]
      exact h
    | ok made =>
      obtain ⟨contribution, contributes⟩ := exists_contributes h sound builder answered
      rw [contributes.performed]
      exact h.extendBy contribution
  · cases operation with
    | addRules rules =>
      rcases addRules_cases rules grammar with done | ⟨before, _, _, _, -, -, -, done⟩
      · rw [Grammar.perform, done]
        exact h.of_bare (bare_withRules grammar rules)
      · rw [Grammar.perform, done]
        exact h.of_bare (bare_withRules grammar before)
    | derive =>
      have same := SameDeclarations.derive grammar
      refine h.of_names (fun symbol known => ⟨same.size ▸ known, same.name symbol⟩)
        fun name there => .inl ?_
      exact same.categories ▸ there
    | _ => exact absurd trivial builder

theorem run (operations : List (Operation κ)) : (run operations).HasPlaceholders := by
  induction operations using List.reverseRecOn with
  | nil => exact new
  | append_singleton operations operation ih =>
    rw [run_append]
    exact ih.perform (IsSound.run operations) operation

end HasPlaceholders

omit [Cost κ] in
/-- The operations that an operation comes to: a chain comes to the addition of each of its
rules. -/
def calls : Operation κ → List (Operation κ)
  | .addRules rules => rules.map fun source => .addRule source.1 source.2
  | operation => [operation]

theorem exists_addRules_eq (rules : List (Symbol × Rule κ)) (grammar : Grammar κ) :
    ∃ accepted : List (Operation κ), (∀ call ∈ accepted, call ∈ calls (.addRules rules)) ∧
      accepted.foldl perform grammar = (grammar.addRules rules).1 := by
  induction rules generalizing grammar with
  | nil => exact ⟨[], fun _ mem => mem, rfl⟩
  | cons source rest ih =>
    obtain ⟨symbol, rule⟩ := source
    rw [addRules]
    cases h : grammar.addRule symbol rule with
    | error fault => exact ⟨[], fun _ mem => absurd mem List.not_mem_nil, rfl⟩
    | ok grown =>
      obtain ⟨accepted, all, same⟩ := ih grown
      refine ⟨.addRule symbol rule :: accepted, List.forall_mem_cons.mpr
        ⟨List.mem_cons_self, fun call mem => List.mem_cons_of_mem _ (all call mem)⟩, ?_⟩
      rw [List.foldl_cons, perform, addRules_singleton, h]
      exact same

theorem exists_perform_eq (operation : Operation κ) (grammar : Grammar κ) :
    ∃ made : List (Operation κ), (∀ call ∈ made, call ∈ calls operation) ∧
      made.foldl perform grammar = grammar.perform operation := by
  cases operation with
  | addRules rules => exact exists_addRules_eq rules grammar
  | _ => exact ⟨[_], fun _ mem => mem, rfl⟩

/-- Every run comes to a run without chains. -/
theorem exists_run_eq (operations : List (Operation κ)) :
    ∃ made, (∀ call ∈ made, call ∈ operations.flatMap calls) ∧ run made = run operations := by
  induction operations using List.reverseRecOn with
  | nil => exact ⟨[], fun _ mem => mem, rfl⟩
  | append_singleton operations operation ih =>
    obtain ⟨made, all, same⟩ := ih
    obtain ⟨more, all', same'⟩ := exists_perform_eq operation (run operations)
    refine ⟨made ++ more, fun call mem => ?_, ?_⟩
    · rw [List.flatMap_append, List.flatMap_singleton, List.mem_append]
      exact (List.mem_append.mp mem).imp (all call) (all' call)
    · rw [run_append, run_append, same, same']
      rfl

/-- What the new grammar has, every accepted builder keeps and derivation keeps, every run leaves. -/
theorem contributions_induction {Q : Grammar κ → Prop} {operations : List (Operation κ)}
    (new : Q .new)
    (builder : ∀ {grammar : Grammar κ} {operation : Operation κ} {made : Option Symbol}
      {contribution : Contribution κ}, operation ∈ operations.flatMap calls → grammar.IsSound →
      grammar.answer operation = .ok made → grammar.Contributes operation made contribution →
      Q grammar → Q (grammar.extendBy contribution))
    (derive : ∀ {grammar : Grammar κ}, grammar.IsSound → Q grammar → Q grammar.derive.1) :
    Q (run operations) := by
  obtain ⟨made, all, same⟩ := exists_run_eq operations
  rw [← same]
  clear same
  induction made using List.reverseRecOn with
  | nil => exact new
  | append_singleton made operation ih =>
    obtain ⟨all, last⟩ := List.forall_mem_append.mp all
    have held := ih all
    have sound := IsSound.run made
    rw [run_append, List.foldl_cons, List.foldl_nil]
    by_cases building : operation.IsBuilder
    · cases answered : (run made).answer operation with
      | error fault =>
        have same : (run made).perform operation = run made := perform_of_error building answered
        exact same.symm ▸ held
      | ok symbol =>
        obtain ⟨contribution, contributes⟩ :=
          exists_contributes (HasPlaceholders.run made) sound building answered
        have same : (run made).perform operation = _ := contributes.performed
        have mem := last operation (List.mem_singleton_self operation)
        exact same.symm ▸ builder mem sound answered contributes held
    · cases operation with
      | derive => exact derive sound held
      | addRules rules =>
        obtain ⟨asked, -, chain⟩ := List.mem_flatMap.mp (last _ (List.mem_singleton_self _))
        cases asked with
        | addRules =>
          obtain ⟨_, -, same⟩ := List.mem_map.mp chain
          cases same
        | _ => cases List.mem_singleton.mp chain
      | _ => exact absurd trivial building

/-- After every run a builder does all or nothing, whatever its arguments: if it is refused it
changes nothing, else it adds what was asked for to what is there. A chain of rules that is refused
has done what its rules before the refused one do. -/
theorem run_perform_atomic (operations : List (Operation κ)) :
    (∀ operation : Operation κ, operation.IsBuilder →
      (∀ fault, (run operations).answer operation = .error fault →
        (run operations).perform operation = run operations) ∧
      ∀ made, (run operations).answer operation = .ok made →
        ∃ contribution, (run operations).Contributes operation made contribution ∧
          (run operations).Gains ((run operations).perform operation) contribution ∧
          (run operations).KeepsBeside contribution ((run operations).perform operation)) ∧
    ∀ rules fault, (run operations).answer (.addRules rules) = .error fault →
      ∃ before source after, rules = before ++ source :: after ∧
        (run operations).answer (.addRules before) = .ok none ∧
        ((run operations).withRules before).answer (.addRule source.1 source.2) = .error fault ∧
        (run operations).perform (.addRules before) = (run operations).withRules before ∧
        (run operations).perform (.addRules rules) = (run operations).withRules before := by
  refine ⟨fun operation builder => ⟨fun fault refused => perform_of_error builder refused,
    fun made accepted => ?_⟩, fun rules fault refused => ?_⟩
  · obtain ⟨contribution, contributes⟩ := exists_contributes (HasPlaceholders.run operations)
      (IsSound.run operations) builder accepted
    refine ⟨contribution, contributes, ?_⟩
    have later : (run (operations ++ [operation])).IsSound := IsSound.run _
    have performed : run (operations ++ [operation]) = (run operations).extendBy contribution :=
      (run_append operations [operation]).trans contributes.performed
    rw [performed] at later
    rw [contributes.performed]
    exact ⟨gains_extendBy contributes.lacks,
      keepsBeside_extendBy contributes.lacks (IsSound.run operations) later⟩
  · rcases addRules_cases rules (run operations) with
      done | ⟨before, source, after, fault', rfl, done, refused', stopped⟩
    · rw [answer, done] at refused
      cases refused
    · refine ⟨before, source, after, rfl, ?_, ?_, ?_, ?_⟩
      · rw [answer, done]
        rfl
      · rw [answer, stopped] at refused
        rw [answer, addRules_singleton, refused']
        exact refused
      · rw [perform, done]
      · rw [perform, stopped]

/-- A grammar with one symbol, and what is asked of it next: a word that is spelled alike twice, a
category, and a chain with a foreign symbol in it. -/
def singleSymbol : List (Operation Float) := [.newSymbol ["word"]]

def repeatedWord : Operation Float := .addInvariable "go" ["go", "go"] [] none

def people : Operation Float := .addCategory "person" [⟨"Ann", ["ann"]⟩]

def ann : Contribution Float := .category "person" [⟨"Ann", ["ann"]⟩]

def strayChain : List (Symbol × Rule Float) :=
  [(⟨2⟩, .word (.ofLiteral "one")), (⟨7⟩, .word (.ofLiteral "two"))]

/-- The word changes nothing, the category makes the next symbol, and the chain leaves its first
rule. -/
theorem singleSymbol_perform_atomic :
    (repeatedWord.IsBuilder ∧
      (run singleSymbol).answer repeatedWord = .error (.duplicateRule "[go]" "\"go\"") ∧
      (run singleSymbol).perform repeatedWord = run singleSymbol) ∧
    (people.IsBuilder ∧ (run singleSymbol).answer people = .ok (some ⟨3⟩) ∧
      (run singleSymbol).Contributes people (some ⟨3⟩) ann ∧
      (run singleSymbol).Gains ((run singleSymbol).perform people) ann ∧
      (run singleSymbol).KeepsBeside ann ((run singleSymbol).perform people)) ∧
    (run singleSymbol).answer (.addRules strayChain) = .error (.unknownSymbol 7) ∧
    ∃ before source after, strayChain = before ++ source :: after ∧
      (run singleSymbol).perform (.addRules strayChain) = (run singleSymbol).withRules before := by
  have refused : (run singleSymbol).answer repeatedWord =
      .error (.duplicateRule "[go]" "\"go\"") := by
    decide +kernel
  have accepted : (run singleSymbol).answer people = .ok (some ⟨3⟩) := by decide +kernel
  have stopped : (run singleSymbol).answer (.addRules strayChain) = .error (.unknownSymbol 7) := by
    decide +kernel
  obtain ⟨builders, chains⟩ := run_perform_atomic singleSymbol
  obtain ⟨contribution, contributes, added⟩ := (builders people trivial).2 _ accepted
  obtain rfl : ann = contribution := Option.some.inj contributes.asked
  obtain ⟨before, source, after, same, -, -, -, done⟩ := chains strayChain _ stopped
  exact ⟨⟨trivial, refused, (builders repeatedWord trivial).1 _ refused⟩,
    ⟨trivial, accepted, contributes, added⟩, stopped, before, source, after, same, done⟩

end Grammar

end PhraseGrammar
