import Mathlib.Logic.Relation
import PhraseGrammar.Derivation.Basic
import PhraseGrammar.Proofs.Building

/-! Runs: what authors can ask of a grammar, one request after the other. A request that is refused
leaves what it did before the fault; the next one goes on from there. -/

namespace PhraseGrammar

variable {κ : Type}

inductive Operation (κ : Type)
  | newSymbol (parts : List String)
  | addRule (symbol : Symbol) (rule : Rule κ)
  | addRules (rules : List (Symbol × Rule κ))
  | newPair (rule : PhraseRule κ)
  | addVerb (name : String) (forms : VerbForms) (spellings : VerbSpellings)
      (insertionCost : Option κ)
  | addInvariable (name : String) (accepted : List String) (substitutes : List (Substitute κ))
      (insertionCost : Option κ)
  | addPronoun (name : String) (forms : PronounForms) (insertionCost : Option κ)
  | addSequence (name : String) (wordClass : WordClass)
      (accepted substitutes : List (SequenceTerm κ)) (insertionCost : Option κ)
  | addPairSequence (wordClass : WordClass) (first second : Symbol)
  | addCategory (name : String) (entities : List Entity)
  | declareFunction (name : String) (cost : κ) (least greatest : Nat) (commutative : Bool)
  | declareArgument (name : String) (cost : κ)
  | derive

/-- A word as the constructors and setters make it: no placeholder of a category, and of integers
only under the literal for them. -/
structure WordRule.IsPlain (rule : WordRule κ) : Prop where
  category : rule.category = none
  range : rule.range.isSome → rule.literal = integerLiteral
  text : rule.range = none → rule.text.isSome

structure PhraseRule.IsPlain (rule : PhraseRule κ) : Prop where
  origin : rule.origin = .authored
  elided : rule.elided = none
  insertionCost : rule.insertionCost = none

def Rule.IsPlain : Rule κ → Prop
  | .word rule => rule.IsPlain
  | .phrase rule => rule.IsPlain

theorem Rule.isPlain_ofLiteral [Zero κ] {literal : String} {insertionCost : Option κ}
    {meaning : Option Meaning} :
    (Rule.word { WordRule.ofLiteral literal with insertionCost, meaning } : Rule κ).IsPlain :=
  ⟨rfl, nofun, fun _ => rfl⟩

theorem Rule.isPlain_ofSlots [Zero κ] {slots : List Slot} {cost : κ} {meaning : Option Meaning}
    {text : Option (List Wording)} :
    (Rule.phrase { PhraseRule.ofSlots slots with cost, meaning, text } : Rule κ).IsPlain :=
  ⟨rfl, rfl, rfl⟩

def Rule.IsAuthored : Rule κ → Prop
  | .word _ => True
  | .phrase rule => rule.origin = .authored ∧ rule.elided = none

theorem Rule.IsPlain.isAuthored {rule : Rule κ} (h : rule.IsPlain) : rule.IsAuthored := by
  cases rule with
  | word rule => exact trivial
  | phrase rule => exact ⟨h.origin, h.elided⟩

/-- Whether a condition holds of the rules that are given with an operation. -/
def Operation.Supplies (P : Rule κ → Prop) : Operation κ → Prop
  | .addRule _ rule => P rule
  | .addRules rules => ∀ source ∈ rules, P source.2
  | .newPair rule => P (.phrase rule)
  | _ => True

theorem Operation.Supplies.mono {P Q : Rule κ → Prop} (h : ∀ rule, P rule → Q rule)
    {operation : Operation κ} (supplies : operation.Supplies P) : operation.Supplies Q := by
  cases operation with
  | addRule symbol rule => exact h rule supplies
  | addRules rules => exact fun source mem => h _ (supplies source mem)
  | newPair rule => exact h _ supplies
  | _ => exact trivial

theorem Operation.supplies_true (operation : Operation κ) : operation.Supplies fun _ => True := by
  cases operation <;> simp [Operation.Supplies]

/-- Only the constructors and setters make the rules of the operation. -/
def Operation.IsPlain (operation : Operation κ) : Prop :=
  operation.Supplies Rule.IsPlain

namespace Grammar

def orKeep {α : Type} (grammar : Grammar κ) : Except (Fault κ) (Grammar κ × α) → Grammar κ
  | .ok (grown, _) => grown
  | .error _ => grammar

def orKeepSignatures (grammar : Grammar κ) :
    Except (Fault κ) (Signatures κ × Meaning) → Grammar κ
  | .ok (signatures, _) => { grammar with signatures }
  | .error _ => grammar

variable [Cost κ]

def perform (grammar : Grammar κ) : Operation κ → Grammar κ
  | .newSymbol parts => grammar.orKeep (grammar.newSymbol parts)
  | .addRule symbol rule => (grammar.addRules [(symbol, rule)]).1
  | .addRules rules => (grammar.addRules rules).1
  | .newPair rule => grammar.orKeep (grammar.newPair rule)
  | .addVerb name forms spellings insertionCost =>
    grammar.orKeep (grammar.addVerb name forms spellings insertionCost)
  | .addInvariable name accepted substitutes insertionCost =>
    grammar.orKeep (grammar.addInvariable name accepted substitutes insertionCost)
  | .addPronoun name forms insertionCost =>
    grammar.orKeep (grammar.addPronoun name forms insertionCost)
  | .addSequence name wordClass accepted substitutes insertionCost =>
    grammar.orKeep (grammar.addSequence name wordClass accepted substitutes insertionCost)
  | .addPairSequence wordClass first second =>
    grammar.orKeep (grammar.addPairSequence wordClass first second)
  | .addCategory name entities => grammar.orKeep (grammar.addCategory name entities)
  | .declareFunction name cost least greatest commutative =>
    grammar.orKeepSignatures
      (grammar.signatures.declareFunction name cost least greatest commutative)
  | .declareArgument name cost =>
    grammar.orKeepSignatures (grammar.signatures.declareArgument name cost)
  | .derive => grammar.derive.1

def run (operations : List (Operation κ)) : Grammar κ :=
  operations.foldl perform .new

/-- The rules that a new symbol has, and the item of the vocabulary that they make. The rules that
authors give satisfy a condition. -/
inductive Introduces (P : Rule κ → Prop) (grammar : Grammar κ) :
    Option VocabularyItem → List (Rule κ) → Prop
  | given {rules : List (Rule κ)} : (∀ rule ∈ rules, P rule) → Introduces P grammar none rules
  | placeholder (category : String) : Introduces P grammar none [.word (.ofCategory category)]
  | words {wordClass : WordClass} {text : Wording} {rules : List (WordRule κ)} : rules ≠ [] →
      Introduces P grammar (some ⟨wordClass, false, [text]⟩) (rules.map .word)
  | sequence {name : String} {wordClass : WordClass} {first : SequenceTerm κ}
      {more substitutes : List (SequenceTerm κ)} (insertionCost : Option κ) :
      (∀ term ∈ first :: more ++ substitutes, grammar.checkTerm name wordClass term = .ok ()) →
      Introduces P grammar (some ⟨wordClass, true, grammar.displayOf first.symbols⟩)
        ((sequenceRules (grammar.displayOf first.symbols) first more substitutes
          insertionCost).map .phrase)

/-- What a builder does to a grammar at a time. The rules that authors give satisfy a condition. -/
inductive Step (P : Rule κ → Prop) : Grammar κ → Grammar κ → Prop
  | define {grammar : Grammar κ} {name : String} {rules : List (Rule κ)}
      {item : Option VocabularyItem} : grammar.symbol? name = none →
      Introduces P grammar item rules → grammar.validateAll name [] rules = .ok rules →
      Step P grammar (grammar.push { Entry.ofName name with rules, item }).1
  | append {grammar : Grammar κ} {symbol : Symbol} {entry : Entry κ} {rule : Rule κ} :
      grammar.entryOf? symbol = some entry → symbol ≠ .empty → entry.item = none → P rule →
      grammar.validate entry.name rule entry.rules = .ok () →
      Step P grammar (grammar.appendRule symbol rule)
  | declare {grammar : Grammar κ} (signatures : Signatures κ) :
      Step P grammar { grammar with signatures }
  | register {grammar : Grammar κ} (categories : Table Category) :
      Step P grammar { grammar with categories }

abbrev Steps (P : Rule κ → Prop) : Grammar κ → Grammar κ → Prop :=
  Relation.ReflTransGen (Step P)

theorem Steps.keep {P : Rule κ → Prop} {Q : Grammar κ → Prop}
    (step : ∀ {before after : Grammar κ}, Q before → Step P before after → Q after)
    {grammar grown : Grammar κ} (steps : Steps P grammar grown) (h : Q grammar) : Q grown := by
  induction steps with
  | refl => exact h
  | tail _ last ih => exact step ih last

variable {P Q : Rule κ → Prop} {grammar grown : Grammar κ} {symbol : Symbol}

theorem Introduces.mono (h : ∀ rule, P rule → Q rule) {item : Option VocabularyItem}
    {rules : List (Rule κ)} (introduces : Introduces P grammar item rules) :
    Introduces Q grammar item rules := by
  cases introduces with
  | given given => exact .given fun rule mem => h rule (given rule mem)
  | placeholder category => exact .placeholder category
  | words some => exact .words some
  | sequence insertionCost checked => exact .sequence insertionCost checked

theorem Step.mono (h : ∀ rule, P rule → Q rule) (step : Step P grammar grown) :
    Step Q grammar grown := by
  cases step with
  | define fresh introduces valid => exact .define fresh (introduces.mono h) valid
  | append found other item given valid => exact .append found other item (h _ given) valid
  | declare signatures => exact .declare signatures
  | register categories => exact .register categories

open Check

theorem orKeep_steps {α : Type} {x : Except (Fault κ) (Grammar κ × α)}
    (h : ∀ {grown made}, x = .ok (grown, made) → Steps P grammar grown) :
    Steps P grammar (grammar.orKeep x) := by
  match x with
  | .ok (grown, made) => exact h rfl
  | .error _ => exact .refl

theorem orKeepSignatures_steps (x : Except (Fault κ) (Signatures κ × Meaning)) :
    Steps P grammar (grammar.orKeepSignatures x) := by
  match x with
  | .ok (signatures, _) => exact .single (.declare signatures)
  | .error _ => exact .refl

theorem newSymbol_step {parts : List String} (h : grammar.newSymbol parts = .ok (grown, symbol)) :
    Step P grammar grown := by
  obtain ⟨fresh, same⟩ := newSymbol_ok h
  obtain rfl : _ = grown := congrArg Prod.fst same
  exact .define fresh (.given fun _ mem => absurd mem List.not_mem_nil) rfl

theorem define_step {name : String} {rules : List (Rule κ)} {item : Option VocabularyItem}
    (h : grammar.define name rules item = .ok (grown, symbol))
    (introduces : Introduces P grammar item rules) : Step P grammar grown := by
  obtain ⟨fresh, valid, same⟩ := define_ok h
  obtain rfl : _ = grown := congrArg Prod.fst same
  exact .define fresh introduces valid

theorem addRule_step {rule : Rule κ} (h : grammar.addRule symbol rule = .ok grown)
    (hP : P rule) : Step P grammar grown := by
  obtain ⟨entry, found, notEmpty, noItem, valid, rfl⟩ := addRule_ok h
  exact .append found notEmpty noItem hP valid

theorem addRules_steps (rules : List (Symbol × Rule κ)) (grammar : Grammar κ)
    (hP : ∀ source ∈ rules, P source.2) : Steps P grammar (grammar.addRules rules).1 := by
  induction rules generalizing grammar with
  | nil => exact .refl
  | cons source rest ih =>
    obtain ⟨symbol, rule⟩ := source
    rw [addRules]
    cases h : grammar.addRule symbol rule with
    | error fault => exact .refl
    | ok grown =>
      have first := addRule_step h (hP _ List.mem_cons_self)
      exact .head first (ih grown fun source mem => hP source (List.mem_cons_of_mem _ mem))

theorem newPair_step {rule : PhraseRule κ} (h : grammar.newPair rule = .ok (grown, symbol))
    (hP : P (.phrase rule)) : Step P grammar grown :=
  define_step (newPair_ok h) (.given fun _ mem => List.mem_singleton.mp mem ▸ hP)

theorem defineWords_step {name : String} {wordClass : WordClass} {text : Wording}
    {rules : List (WordRule κ)}
    (h : grammar.defineWords name wordClass text rules = .ok (grown, symbol))
    (some : rules ≠ []) : Step P grammar grown :=
  define_step h (.words some)

theorem addInvariable_step {name : String} {accepted : List String}
    {substitutes : List (Substitute κ)} {insertionCost : Option κ}
    (h : grammar.addInvariable name accepted substitutes insertionCost = .ok (grown, symbol)) :
    Step P grammar grown := by
  obtain ⟨first, more, -, defined⟩ := addInvariable_ok h
  exact defineWords_step defined (List.cons_ne_nil _ _)

theorem addSequence_step {name : String} {wordClass : WordClass}
    {accepted substitutes : List (SequenceTerm κ)} {insertionCost : Option κ}
    (h : grammar.addSequence name wordClass accepted substitutes insertionCost =
      .ok (grown, symbol)) : Step P grammar grown := by
  obtain ⟨first, more, -, checked, defined⟩ := addSequence_ok h
  exact define_step defined (.sequence insertionCost checked)

theorem addCategory_steps {name : String} {entities : List Entity}
    (h : grammar.addCategory name entities = .ok (grown, symbol)) : Steps P grammar grown := by
  obtain ⟨made, defined, rfl⟩ := addCategory_ok h
  have first : Step P grammar made := define_step defined (.placeholder name)
  exact .tail (.single first) (.register _)

/-- Whatever an operation other than derivation does is done in steps. -/
theorem perform_steps {operation : Operation κ} (supplies : operation.Supplies P)
    (building : operation ≠ .derive) : Steps P grammar (grammar.perform operation) := by
  cases operation with
  | newSymbol parts => exact orKeep_steps fun h => .single (newSymbol_step h)
  | addRule symbol rule =>
    exact addRules_steps _ _ fun _ mem => List.mem_singleton.mp mem ▸ supplies
  | addRules rules => exact addRules_steps _ _ supplies
  | newPair rule => exact orKeep_steps fun h => .single (newPair_step h supplies)
  | addVerb =>
    exact orKeep_steps fun h => .single (defineWords_step (addVerb_ok h) (List.cons_ne_nil _ _))
  | addInvariable => exact orKeep_steps fun h => .single (addInvariable_step h)
  | addPronoun =>
    exact orKeep_steps fun h =>
      .single (defineWords_step (addPronoun_ok h) (List.cons_ne_nil _ _))
  | addSequence => exact orKeep_steps fun h => .single (addSequence_step h)
  | addPairSequence =>
    exact orKeep_steps fun h => .single (addSequence_step (addPairSequence_ok h))
  | addCategory => exact orKeep_steps addCategory_steps
  | declareFunction => exact orKeepSignatures_steps _
  | declareArgument => exact orKeepSignatures_steps _
  | derive => exact absurd rfl building

theorem performAll_induction {Q : Grammar κ → Prop}
    (step : ∀ {before after : Grammar κ}, Q before → Step P before after → Q after)
    {operations : List (Operation κ)}
    (derive : .derive ∈ operations → ∀ {before : Grammar κ}, Q before → Q before.derive.1)
    (supplies : ∀ operation ∈ operations, operation.Supplies P) (h : Q grammar) :
    Q (operations.foldl perform grammar) := by
  refine List.foldlRecOn operations perform h fun grammar held operation mem => ?_
  by_cases building : operation = .derive
  · rw [building]
    exact derive (building ▸ mem) held
  · have steps : Steps P grammar (grammar.perform operation) :=
      perform_steps (supplies operation mem) building
    exact steps.keep step held

/-- What holds of the new grammar, and is kept by every step and by derivation, where the run has
any, holds after the run. -/
theorem run_induction {Q : Grammar κ → Prop} (new : Q .new)
    (step : ∀ {before after : Grammar κ}, Q before → Step P before after → Q after)
    {operations : List (Operation κ)}
    (derive : .derive ∈ operations → ∀ {before : Grammar κ}, Q before → Q before.derive.1)
    (supplies : ∀ operation ∈ operations, operation.Supplies P) : Q (run operations) :=
  performAll_induction step derive supplies new

theorem run_append (operations more : List (Operation κ)) :
    run (operations ++ more) = more.foldl perform (run operations) :=
  List.foldl_append

theorem of_mem_sequenceRules {text : List Wording} {first : SequenceTerm κ}
    {more substitutes : List (SequenceTerm κ)} {insertionCost : Option κ} {rule : PhraseRule κ}
    (h : rule ∈ sequenceRules text first more substitutes insertionCost) :
    (Rule.phrase rule).IsAuthored ∧
      ∃ term ∈ first :: more ++ substitutes, rule.slots = term.symbols.map .ofSymbol := by
  unfold sequenceRules at h
  rcases List.mem_cons.mp h with rfl | h
  · exact ⟨⟨rfl, rfl⟩, first, List.mem_cons_self, rfl⟩
  · rcases List.mem_append.mp h with h | h
    · obtain ⟨term, mem, rfl⟩ := List.mem_map.mp h
      exact ⟨⟨rfl, rfl⟩, term, List.mem_append_left _ (List.mem_cons_of_mem _ mem), rfl⟩
    · obtain ⟨term, mem, rfl⟩ := List.mem_map.mp h
      exact ⟨⟨rfl, rfl⟩, term, List.mem_append_right _ mem, rfl⟩

theorem Introduces.all (authored : ∀ rule : Rule κ, rule.IsAuthored → P rule)
    {item : Option VocabularyItem} {rules : List (Rule κ)} (h : Introduces P grammar item rules) :
    ∀ rule ∈ rules, P rule := by
  intro rule mem
  cases h with
  | given given => exact given rule mem
  | placeholder category => exact authored rule (List.mem_singleton.mp mem ▸ trivial)
  | words some =>
    obtain ⟨word, -, rfl⟩ := List.mem_map.mp mem
    exact authored _ trivial
  | sequence insertionCost checked =>
    obtain ⟨phrase, made, rfl⟩ := List.mem_map.mp mem
    exact authored _ (of_mem_sequenceRules made).1

omit [Cost κ] in
def AllRules (P : Rule κ → Prop) (grammar : Grammar κ) : Prop :=
  ∀ symbol, ∀ rule ∈ grammar.rulesOf symbol, P rule

omit [Cost κ] in
theorem mem_rulesOf {rule : Rule κ} :
    rule ∈ grammar.rulesOf symbol ↔
      ∃ entry, grammar.entryOf? symbol = some entry ∧ rule ∈ entry.rules := by
  unfold rulesOf
  cases grammar.entryOf? symbol with
  | none => exact ⟨fun mem => absurd mem List.not_mem_nil, nofun⟩
  | some entry =>
    constructor
    · exact fun mem => ⟨entry, rfl, mem⟩
    · rintro ⟨_, same, mem⟩
      exact Option.some.inj same ▸ mem

omit [Cost κ] in
theorem allRules_iff :
    grammar.AllRules P ↔ ∀ entry ∈ grammar.entries, ∀ rule ∈ entry.rules, P rule := by
  constructor
  · intro h entry mem rule here
    obtain ⟨index, found⟩ := List.mem_iff_getElem?.mp mem
    exact h ⟨index⟩ rule (mem_rulesOf.mpr ⟨entry, found, here⟩)
  · intro h symbol rule mem
    obtain ⟨entry, found, here⟩ := mem_rulesOf.mp mem
    exact h entry (List.mem_of_getElem? found) rule here

namespace AllRules

omit [Cost κ] in
theorem new : (new : Grammar κ).AllRules P := by
  refine allRules_iff.mpr fun entry mem rule here => ?_
  simp only [Grammar.new, List.mem_cons, List.not_mem_nil, or_false] at mem
  rcases mem with rfl | rfl
  · exact absurd here List.not_mem_nil
  · exact absurd here List.not_mem_nil

theorem step (authored : ∀ rule : Rule κ, rule.IsAuthored → P rule) (h : grammar.AllRules P)
    (step : Step P grammar grown) : grown.AllRules P := by
  rw [allRules_iff] at h
  refine allRules_iff.mpr ?_
  cases step with
  | define fresh introduces valid =>
    intro entry mem
    rcases List.mem_append.mp mem with mem | mem
    · exact h entry mem
    · rw [List.mem_singleton.mp mem]
      exact introduces.all authored
  | @append symbol entry rule found other item given valid =>
    intro changed mem
    obtain ⟨index, found⟩ := List.mem_iff_getElem?.mp mem
    simp only [appendRule, update, List.getElem?_modify] at found
    obtain ⟨old, before, rfl⟩ := Option.map_eq_some_iff.mp found
    have rules := h old (List.mem_of_getElem? before)
    split
    · intro rule' mem
      rcases List.mem_append.mp mem with mem | mem
      · exact rules rule' mem
      · exact List.mem_singleton.mp mem ▸ given
    · exact rules
  | declare signatures => exact h
  | register categories => exact h

end AllRules

theorem run_unfilled {operations : List (Operation κ)} (underived : .derive ∉ operations) :
    ∀ entry ∈ (run operations).entries, entry.zeroFiller = none ∧ entry.vanished = [] := by
  refine run_induction (P := fun _ => True)
    (Q := fun grammar => ∀ entry ∈ grammar.entries, entry.zeroFiller = none ∧ entry.vanished = [])
    ?_ (fun {before after} held step => ?_) (fun mem => absurd mem underived)
    fun operation _ => operation.supplies_true
  · exact List.forall_mem_cons.mpr ⟨⟨rfl, rfl⟩,
      List.forall_mem_cons.mpr ⟨⟨rfl, rfl⟩, List.forall_mem_nil _⟩⟩
  · cases step with
    | define fresh introduces valid =>
      intro entry mem
      rcases List.mem_append.mp mem with mem | mem
      · exact held entry mem
      · rw [List.mem_singleton.mp mem]
        exact ⟨rfl, rfl⟩
    | append found other item given valid =>
      intro entry mem
      obtain ⟨index, found⟩ := List.mem_iff_getElem?.mp mem
      simp only [appendRule, update, List.getElem?_modify] at found
      obtain ⟨old, there, rfl⟩ := Option.map_eq_some_iff.mp found
      have unfilled := held old (List.mem_of_getElem? there)
      split <;> exact unfilled
    | declare signatures => exact held
    | register categories => exact held

/-- Without a derivation all rules stay as their authors made them, and no symbol is known to match
the empty text. -/
theorem run_underived {operations : List (Operation κ)}
    (plain : ∀ operation ∈ operations, operation.IsPlain) (underived : .derive ∉ operations) :
    (run operations).AllRules Rule.IsAuthored ∧
      ∀ symbol, (run operations).zeroFiller? symbol = none := by
  have supplies : ∀ operation ∈ operations, operation.Supplies Rule.IsAuthored :=
    fun operation mem => (plain operation mem).mono fun _ h => h.isAuthored
  refine ⟨run_induction .new (.step fun _ h => h) (fun mem => absurd mem underived) supplies,
    fun symbol => ?_⟩
  rw [zeroFiller?]
  cases found : (run operations).entryOf? symbol with
  | none => rfl
  | some entry => exact (run_unfilled underived entry (List.mem_of_getElem? found)).1

end Grammar

end PhraseGrammar
