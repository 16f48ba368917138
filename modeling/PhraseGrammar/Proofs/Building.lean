import PhraseGrammar.Category
import PhraseGrammar.Proofs.Validation
import PhraseGrammar.Vocabulary

/-! Builders that are not refused: what each of them has found to be right, and the grammar that it
makes. -/

namespace PhraseGrammar

open Check

variable {κ : Type}

namespace Grammar

variable [Cost κ] {grammar grown : Grammar κ} {symbol : Symbol}

omit [Cost κ] in
theorem requireNewName_ok {name : String} :
    grammar.requireNewName name = .ok () ↔ grammar.symbol? name = none := by
  unfold requireNewName
  cases grammar.symbol? name with
  | none => exact ⟨fun _ => rfl, fun _ => rfl⟩
  | some found => exact ⟨nofun, nofun⟩

omit [Cost κ] in
theorem newSymbol_ok {parts : List String} (h : grammar.newSymbol parts = .ok (grown, symbol)) :
    grammar.symbol? (SymbolName.compose parts) = none ∧
      grammar.push (.ofName (SymbolName.compose parts)) = (grown, symbol) := by
  unfold newSymbol at h
  rw [when_ok, then_ok, requireNewName_ok] at h
  obtain ⟨_, fresh, same⟩ := h
  exact ⟨fresh, Except.ok.inj same⟩

theorem define_ok {name : String} {rules : List (Rule κ)} {item : Option VocabularyItem}
    (h : grammar.define name rules item = .ok (grown, symbol)) :
    grammar.symbol? name = none ∧ grammar.validateAll name [] rules = .ok rules ∧
      grammar.push { Entry.ofName name with rules, item } = (grown, symbol) := by
  unfold define at h
  rw [then_ok, requireNewName_ok, bind_ok] at h
  obtain ⟨fresh, accepted, valid, same⟩ := h
  have all := (validateAll_ok.mp valid).1
  rw [List.nil_append] at all
  subst all
  exact ⟨fresh, valid, Except.ok.inj same⟩

/-- A symbol is made exactly when its name is new, each of its rules passes its check, and no two
of them have one right-hand side. -/
theorem define_eq_ok {name : String} {rules : List (Rule κ)} {item : Option VocabularyItem}
    {made : Grammar κ × Symbol} :
    grammar.define name rules item = .ok made ↔
      grammar.symbol? name = none ∧ (∀ rule ∈ rules, grammar.checkRule name rule = .ok ()) ∧
        Rule.Apart rules ∧ grammar.push { Entry.ofName name with rules, item } = made := by
  obtain ⟨grown, symbol⟩ := made
  constructor
  · intro h
    obtain ⟨fresh, valid, same⟩ := define_ok h
    obtain ⟨-, checked, apart, -⟩ := validateAll_ok.mp valid
    exact ⟨fresh, checked, apart, same⟩
  · rintro ⟨fresh, checked, apart, same⟩
    unfold define
    rw [then_ok, requireNewName_ok, bind_ok]
    refine ⟨fresh, rules, validateAll_ok.mpr ⟨rfl, checked, apart, ?_⟩, congrArg Except.ok same⟩
    exact fun _ mem => absurd mem List.not_mem_nil

theorem addRule_ok {rule : Rule κ} (h : grammar.addRule symbol rule = .ok grown) :
    ∃ entry, grammar.entryOf? symbol = some entry ∧ symbol ≠ .empty ∧ entry.item = none ∧
      grammar.validate entry.name rule entry.rules = .ok () ∧
      grammar.appendRule symbol rule = grown := by
  unfold addRule at h
  rw [bind_ok] at h
  obtain ⟨entry, found, h⟩ := h
  rw [when_ok, when_ok, then_ok] at h
  obtain ⟨notEmpty, noItem, valid, same⟩ := h
  exact ⟨entry, requireEntry_ok.mp found, notEmpty, by simpa using noItem, valid,
    Except.ok.inj same⟩

omit [Cost κ] in
theorem mapM_requireEntry_ok {symbols : List Symbol} {entries : List (Entry κ)}
    (h : symbols.mapM grammar.requireEntry = .ok entries) :
    entries.map (·.name) = symbols.map grammar.nameOf := by
  induction symbols generalizing entries with
  | nil =>
    rw [← Except.ok.inj h]
    rfl
  | cons symbol symbols ih =>
    rw [List.mapM_cons, bind_ok] at h
    obtain ⟨entry, found, h⟩ := h
    obtain ⟨rest, others, same⟩ := bind_ok.mp h
    have name : grammar.nameOf symbol = entry.name := by
      rw [nameOf, requireEntry_ok.mp found]
      rfl
    rw [← Except.ok.inj same, List.map_cons, List.map_cons, ih others, name]

theorem newPair_ok {rule : PhraseRule κ} (h : grammar.newPair rule = .ok (grown, symbol)) :
    grammar.define (SymbolName.compose (rule.symbols.map grammar.nameOf)) [.phrase rule] none =
      .ok (grown, symbol) := by
  unfold newPair at h
  rw [unless_ok, bind_ok] at h
  obtain ⟨_, entries, found, defined⟩ := h
  rwa [mapM_requireEntry_ok found] at defined

/-- What all builders of items begin with: the item has a name, and its insertion cost is
acceptable. -/
theorem named_eq_ok {α : Type} {what : Declaration} {name : String} {insertionCost : Option κ}
    {build : String → Except (Fault κ) α} {made : α} :
    (do
      let name ← requireItemName what name
      requireCost? what .insertion insertionCost
      build name) = .ok made ↔
    name ≠ "" ∧ (∀ cost ∈ insertionCost, Cost.isAcceptable cost = true) ∧
      build (SymbolName.compose [name]) = .ok made := by
  rw [bind_ok, requireItemName, ne_eq, ← String.isEmpty_iff]
  simp only [then_ok, requireCost?_ok]
  by_cases empty : name.isEmpty = true
  · rw [if_pos empty]
    exact ⟨fun ⟨_, named, _⟩ => (nomatch named), fun ⟨named, _⟩ => absurd empty named⟩
  · rw [if_neg empty]
    constructor
    · rintro ⟨_, same, built⟩
      exact ⟨empty, Except.ok.inj same ▸ built⟩
    · rintro ⟨-, built⟩
      exact ⟨_, rfl, built⟩

theorem addVerb_eq_ok {name : String} {forms : VerbForms} {spellings : VerbSpellings}
    {insertionCost : Option κ} {made : Grammar κ × Symbol} :
    grammar.addVerb name forms spellings insertionCost = .ok made ↔
      name ≠ "" ∧ (∀ cost ∈ insertionCost, Cost.isAcceptable cost = true) ∧
        grammar.defineWords (SymbolName.compose [name]) .verb (.verb forms)
          (verbRules forms spellings insertionCost) = .ok made :=
  named_eq_ok

theorem addVerb_ok {name : String} {forms : VerbForms} {spellings : VerbSpellings}
    {insertionCost : Option κ}
    (h : grammar.addVerb name forms spellings insertionCost = .ok (grown, symbol)) :
    grammar.defineWords (SymbolName.compose [name]) .verb (.verb forms)
      (verbRules forms spellings insertionCost) = .ok (grown, symbol) :=
  (addVerb_eq_ok.mp h).2.2

theorem addInvariable_eq_ok {name : String} {accepted : List String}
    {substitutes : List (Substitute κ)} {insertionCost : Option κ} {made : Grammar κ × Symbol} :
    grammar.addInvariable name accepted substitutes insertionCost = .ok made ↔
      name ≠ "" ∧ (∀ cost ∈ insertionCost, Cost.isAcceptable cost = true) ∧
        ∃ first more, accepted = first :: more ∧
          (∀ substitute ∈ substitutes, Cost.isAcceptable substitute.penalty = true) ∧
          grammar.defineWords (SymbolName.compose [name]) .invariable (.fixed first)
            (invariableRules first more substitutes insertionCost) = .ok made := by
  refine named_eq_ok.trans (and_congr_right' (and_congr_right' ?_))
  cases accepted with
  | nil => exact ⟨nofun, fun ⟨_, _, absent, _⟩ => (nomatch absent)⟩
  | cons first more =>
    simp only [then_ok, forM_ok, requireCost_ok, List.cons.injEq]
    constructor
    · intro built
      exact ⟨first, more, ⟨rfl, rfl⟩, built⟩
    · rintro ⟨_, _, ⟨rfl, rfl⟩, built⟩
      exact built

theorem addInvariable_ok {name : String} {accepted : List String}
    {substitutes : List (Substitute κ)} {insertionCost : Option κ}
    (h : grammar.addInvariable name accepted substitutes insertionCost = .ok (grown, symbol)) :
    ∃ first more, accepted = first :: more ∧
      grammar.defineWords (SymbolName.compose [name]) .invariable (.fixed first)
        (invariableRules first more substitutes insertionCost) = .ok (grown, symbol) := by
  obtain ⟨-, -, first, more, same, -, defined⟩ := addInvariable_eq_ok.mp h
  exact ⟨first, more, same, defined⟩

theorem addPronoun_eq_ok {name : String} {forms : PronounForms} {insertionCost : Option κ}
    {made : Grammar κ × Symbol} :
    grammar.addPronoun name forms insertionCost = .ok made ↔
      name ≠ "" ∧ (∀ cost ∈ insertionCost, Cost.isAcceptable cost = true) ∧
        grammar.defineWords (SymbolName.compose [name]) .pronoun (.pronoun forms)
          (pronounRules forms insertionCost) = .ok made :=
  named_eq_ok

theorem addPronoun_ok {name : String} {forms : PronounForms} {insertionCost : Option κ}
    (h : grammar.addPronoun name forms insertionCost = .ok (grown, symbol)) :
    grammar.defineWords (SymbolName.compose [name]) .pronoun (.pronoun forms)
      (pronounRules forms insertionCost) = .ok (grown, symbol) :=
  (addPronoun_eq_ok.mp h).2.2

theorem addSequence_ok {name : String} {wordClass : WordClass}
    {accepted substitutes : List (SequenceTerm κ)} {insertionCost : Option κ}
    (h : grammar.addSequence name wordClass accepted substitutes insertionCost =
      .ok (grown, symbol)) :
    ∃ first more, accepted = first :: more ∧
      (∀ term ∈ first :: more ++ substitutes,
        grammar.checkTerm (SymbolName.compose [name]) wordClass term = .ok ()) ∧
      grammar.define (SymbolName.compose [name])
        ((sequenceRules (grammar.displayOf first.symbols) first more substitutes
          insertionCost).map .phrase)
        (some ⟨wordClass, true, grammar.displayOf first.symbols⟩) = .ok (grown, symbol) := by
  obtain ⟨-, -, h⟩ := named_eq_ok.mp h
  cases accepted with
  | nil => exact nomatch h
  | cons first more =>
    obtain ⟨checked, h⟩ := then_ok.mp h
    exact ⟨first, more, rfl, (forM_ok _).mp checked, (unless_ok.mp h).2⟩

theorem addPairSequence_ok {wordClass : WordClass} {first second : Symbol}
    (h : grammar.addPairSequence wordClass first second = .ok (grown, symbol)) :
    grammar.addSequence (SymbolName.compose [grammar.nameOf first, grammar.nameOf second])
      wordClass [⟨[first, second], [], 0⟩] [] none = .ok (grown, symbol) := by
  unfold addPairSequence at h
  rw [bind_ok] at h
  obtain ⟨a, here, h⟩ := h
  rw [bind_ok] at h
  obtain ⟨b, there, h⟩ := h
  rw [nameOf, requireEntry_ok.mp here, nameOf, requireEntry_ok.mp there]
  exact h

theorem addCategory_ok {name : String} {entities : List Entity}
    (h : grammar.addCategory name entities = .ok (grown, symbol)) :
    ∃ made, grammar.define (SymbolName.placeholder name) [.word (.ofCategory name)] none =
        .ok (made, symbol) ∧
      { made with categories :=
        made.categories.insert name ⟨SymbolName.placeholder name, entities⟩ } = grown := by
  unfold addCategory at h
  have h := (when_ok.mp (unless_ok.mp h).2).2
  have h := (then_ok.mp h).2
  rw [bind_ok] at h
  obtain ⟨⟨made, placeholder⟩, defined, same⟩ := h
  obtain ⟨rfl, rfl⟩ := Prod.mk.inj (Except.ok.inj same)
  exact ⟨made, defined, rfl⟩

theorem isNamed_of_addCategory_ok {name : String} {entities : List Entity}
    (h : grammar.addCategory name entities = .ok (grown, symbol)) :
    entities ≠ [] ∧ ∀ entity ∈ entities, entity.isNamed = true := by
  unfold addCategory at h
  obtain ⟨some, h⟩ := when_ok.mp (unless_ok.mp h).2
  have named := (forM_ok _).mp (then_ok.mp h).1
  refine ⟨fun none => some (none ▸ rfl), fun entity mem => ?_⟩
  refine Decidable.byContradiction fun unnamed => ?_
  have checked := named entity mem
  rw [if_neg unnamed] at checked
  exact throw_ne_ok checked

end Grammar

namespace Signatures

variable {signatures grown : Signatures κ} {meaning function : Meaning} {args : List Meaning}

theorem compose_eq_ok :
    signatures.compose function args = .ok meaning ↔
      ∃ name signature, function = .apply name [] ∧
        signatures.function? name = some signature ∧ signature.least ≤ args.length ∧
        args.length ≤ signature.greatest ∧ meaning = .apply name (arrange signature args) := by
  constructor
  · intro h
    match function with
    | .apply name [] =>
      rw [compose, applyNamed] at h
      split at h
      case h_1 => exact nomatch h
      case h_2 signature found =>
        split at h
        case isTrue => exact nomatch h
        case isFalse within =>
          rw [not_or, Nat.not_lt, Nat.not_lt] at within
          exact ⟨name, signature, rfl, found, within.1, within.2, (Except.ok.inj h).symm⟩
    | .apply _ (_ :: _) => exact nomatch h
    | .argument _ => exact nomatch h
    | .entity _ => exact nomatch h
  · rintro ⟨name, signature, rfl, found, least, greatest, rfl⟩
    rw [compose, applyNamed, found]
    exact if_neg (not_or.mpr ⟨Nat.not_lt.mpr least, Nat.not_lt.mpr greatest⟩)

theorem declare_ok {name : String} {signature : Signature κ}
    (h : signatures.declare name signature = .ok grown) :
    signatures.contains name = false ∧ Table.insert signatures name signature = grown := by
  unfold declare at h
  split at h
  · exact nomatch h
  · exact ⟨Bool.not_eq_true _ ▸ ‹_›, Except.ok.inj h⟩

variable [Cost κ]

theorem declareFunction_ok {name : String} {cost : κ} {least greatest : Nat} {commutative : Bool}
    (h : signatures.declareFunction name cost least greatest commutative = .ok (grown, meaning)) :
    signatures.contains name = false ∧
      Table.insert signatures name ⟨cost, least, greatest, commutative, false⟩ = grown := by
  unfold declareFunction at h
  rw [then_ok, then_ok, when_ok, when_ok, bind_ok] at h
  obtain ⟨-, -, -, -, declared, made, same⟩ := h
  obtain rfl : declared = grown := congrArg Prod.fst (Except.ok.inj same)
  exact declare_ok made

theorem declareArgument_ok {name : String} {cost : κ}
    (h : signatures.declareArgument name cost = .ok (grown, meaning)) :
    signatures.contains name = false ∧
      Table.insert signatures name ⟨cost, 0, 0, false, true⟩ = grown := by
  unfold declareArgument at h
  rw [then_ok, then_ok, bind_ok] at h
  obtain ⟨-, -, declared, made, same⟩ := h
  obtain rfl : declared = grown := congrArg Prod.fst (Except.ok.inj same)
  exact declare_ok made

end Signatures

end PhraseGrammar
