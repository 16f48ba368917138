import PhraseGrammar.Proofs.Consistency
import PhraseGrammar.Proofs.RoundedNumbers
import PhraseGrammar.Proofs.Spreading

/-! Items of words. A builder makes an item exactly of options that are well formed: costs are
acceptable, and the literals are tokens that all differ. The item has one rule for each literal, and
is filled by the first of them where an insertion cost is given. -/

namespace PhraseGrammar

open Check

variable {κ : Type}

namespace Grammar

variable [Cost κ] {grammar : Grammar κ} {symbol : Symbol}

theorem fillers_of?_of_words (words : ∀ rule ∈ grammar.rulesOf symbol, rule.isWord = true) :
    grammar.fillers.of? symbol = grammar.seeds.of? symbol := by
  have pass : ∀ best : Fillers κ, best.AgreeOn (· = symbol) grammar.seeds →
      (grammar.pass best).AgreeOn (· = symbol) grammar.seeds := by
    intro best held
    refine List.foldlRecOn (motive := fun best : Fillers κ => best.AgreeOn (· = symbol) _) _
      grammar.improve held fun best held source mem => ?_
    refine agree_improve held fun here => ?_
    obtain ⟨present, -⟩ := mem_fillingRules.mp mem
    rw [here] at present
    exact nomatch words _ present
  rw [fillers_eq_iterate]
  exact (Function.Iterate.rec (fun best : Fillers κ => best.AgreeOn (· = symbol) grammar.seeds)
    ⟨rfl, fun _ _ => rfl⟩ pass _).of? symbol rfl

end Grammar

/-- One of the words of an item: what it matches, what is displayed for it, and what it costs. -/
structure WordForm (κ : Type) where
  literal : String
  text : Wording
  penalty : κ

/-- An item of words before it is made. What is displayed for its first form is displayed for the
item as a whole. -/
structure WordItem (κ : Type) where
  first : WordForm κ
  more : List (WordForm κ)
  insertionCost : Option κ

namespace WordItem

def forms (item : WordItem κ) : List (WordForm κ) := item.first :: item.more

def literals (item : WordItem κ) : List String := item.forms.map (·.literal)

/-- The forms of a verb after the first one, and its other spellings, each with its tense. A plural
that is spelled like the first person singular counts once. -/
def verbWords (forms : VerbForms) (spellings : VerbSpellings) : List (Tense × String) :=
  [(.present, forms.threeSg)] ++
    (if forms.pl = forms.oneSg then [] else [(.present, forms.pl)]) ++
    [(.past, forms.past)] ++ spellings.presentSubjunctive.toList.map (.present, ·) ++
    spellings.presentParticiple.toList.map (.present, ·) ++
    spellings.pastParticiple.toList.map (.past, ·)

variable [Cost κ]

def ofVerb (forms : VerbForms) (spellings : VerbSpellings) (insertionCost : Option κ) :
    WordItem κ where
  first := ⟨forms.oneSg, .verb forms, 0⟩
  more := (verbWords forms spellings).map fun word => ⟨word.2, .verb forms, 0⟩
  insertionCost

/-- Both forms share their text. An objective form that is spelled like the nominative counts
once. -/
def ofPronoun (forms : PronounForms) (insertionCost : Option κ) : WordItem κ where
  first := ⟨forms.nom, .pronoun forms, 0⟩
  more := if forms.obj = forms.nom then [] else [⟨forms.obj, .pronoun forms, 0⟩]
  insertionCost

def ofTerms (first : String) (more : List String) (substitutes : List (Substitute κ))
    (insertionCost : Option κ) : WordItem κ where
  first := ⟨first, .fixed first, 0⟩
  more := more.map (fun term => ⟨term, .fixed term, 0⟩) ++
    substitutes.map fun substitute => ⟨substitute.term, .fixed first, substitute.penalty⟩
  insertionCost

structure IsWellFormed (item : WordItem κ) : Prop where
  cost : ∀ cost ∈ item.insertionCost, Cost.isAcceptable cost = true
  penalties : ∀ form ∈ item.forms, Cost.isAcceptable form.penalty = true
  tokens : ∀ literal ∈ item.literals, isToken literal = true
  distinct : item.literals.Nodup

/-- A word rule for a form, which is no placeholder. -/
structure IsForm (rule : WordRule κ) (form : WordForm κ) : Prop where
  literal : rule.literal = form.literal
  text : rule.text = some form.text
  penalty : rule.penalty = form.penalty
  plain : rule.category = none ∧ rule.range = none ∧ rule.meaning = none

/-- The rules of an item, one for each form. The first of them alone may be inserted. -/
structure HasRules (item : WordItem κ) (head : WordRule κ) (tail : List (WordRule κ)) : Prop where
  forms : List.Forall₂ IsForm (head :: tail) item.forms
  free : item.first.penalty = 0
  head : head.insertionCost = item.insertionCost
  tail : ∀ rule ∈ tail, rule.insertionCost = none

omit [Cost κ] in
theorem isForm_map {α : Type} {rule : α → WordRule κ} {form : α → WordForm κ}
    (same : ∀ x, IsForm (rule x) (form x)) (xs : List α) :
    List.Forall₂ IsForm (xs.map rule) (xs.map form) := by
  rw [List.forall₂_map_left_iff, List.forall₂_map_right_iff, List.forall₂_same]
  exact fun x _ => same x

theorem verbRules_eq (forms : VerbForms) (spellings : VerbSpellings) (insertionCost : Option κ) :
    verbRules forms spellings insertionCost =
      { verbRule (.verb forms) .present forms.oneSg with insertionCost } ::
        (verbWords forms spellings).map fun word => verbRule (.verb forms) word.1 word.2 := by
  unfold verbRules verbWords
  split <;> simp [Function.comp_def]

theorem ofVerb_hasRules (forms : VerbForms) (spellings : VerbSpellings)
    (insertionCost : Option κ) :
    ∃ head tail, verbRules forms spellings insertionCost = head :: tail ∧
      (ofVerb forms spellings insertionCost).HasRules head tail := by
  have form : ∀ word : Tense × String,
      IsForm (verbRule (.verb forms) word.1 word.2 : WordRule κ) ⟨word.2, .verb forms, 0⟩ :=
    fun _ => ⟨rfl, rfl, rfl, rfl, rfl, rfl⟩
  refine ⟨_, _, verbRules_eq forms spellings insertionCost,
    .cons ⟨rfl, rfl, rfl, rfl, rfl, rfl⟩ (isForm_map form _), rfl, rfl, ?_⟩
  exact List.forall_mem_map.mpr fun _ _ => rfl

theorem ofPronoun_hasRules (forms : PronounForms) (insertionCost : Option κ) :
    ∃ head tail, pronounRules forms insertionCost = head :: tail ∧
      (ofPronoun forms insertionCost).HasRules head tail := by
  unfold pronounRules ofPronoun
  refine ⟨_, _, rfl, .cons ⟨rfl, rfl, rfl, rfl, rfl, rfl⟩ ?_, rfl, rfl, ?_⟩
  · dsimp only
    split
    · exact .nil
    · exact .cons ⟨rfl, rfl, rfl, rfl, rfl, rfl⟩ .nil
  · split
    · exact List.forall_mem_nil _
    · exact List.forall_mem_singleton.mpr rfl

theorem ofTerms_hasRules (first : String) (more : List String)
    (substitutes : List (Substitute κ)) (insertionCost : Option κ) :
    ∃ head tail, invariableRules first more substitutes insertionCost = head :: tail ∧
      (ofTerms first more substitutes insertionCost).HasRules head tail := by
  refine ⟨_, _, rfl, .cons ⟨rfl, rfl, rfl, rfl, rfl, rfl⟩ (List.rel_append ?_ ?_), rfl, rfl, ?_⟩
  · exact isForm_map (fun _ => ⟨rfl, rfl, rfl, rfl, rfl, rfl⟩) more
  · exact isForm_map (fun _ => ⟨rfl, rfl, rfl, rfl, rfl, rfl⟩) substitutes
  · refine List.forall_mem_append.mpr ⟨?_, ?_⟩
    · exact List.forall_mem_map.mpr fun _ _ => rfl
    · exact List.forall_mem_map.mpr fun _ _ => rfl

theorem forall_mem_iff {α β : Type} {R : α → β → Prop} {P : α → Prop} {Q : β → Prop} {xs : List α}
    {ys : List β} (h : List.Forall₂ R xs ys) (same : ∀ x y, R x y → (P x ↔ Q y)) :
    (∀ x ∈ xs, P x) ↔ ∀ y ∈ ys, Q y := by
  induction h with
  | nil => exact ⟨fun _ => List.forall_mem_nil _, fun _ => List.forall_mem_nil _⟩
  | cons here _ ih => rw [List.forall_mem_cons, List.forall_mem_cons, same _ _ here, ih]

namespace HasRules

variable {item : WordItem κ} {head : WordRule κ} {tail : List (WordRule κ)}
  (h : item.HasRules head tail) {grammar grown : Grammar κ} {symbol : Symbol} {name : String}
  {wordClass : WordClass} {text : Wording}

include h

theorem literals_eq : (head :: tail).map (·.literal) = item.literals := by
  rw [literals, ← List.forall₂_eq_eq_eq, List.forall₂_map_left_iff, List.forall₂_map_right_iff]
  exact h.forms.imp fun _ _ same => same.literal

theorem apart_iff : Rule.Apart ((head :: tail).map .word) ↔ item.literals.Nodup := by
  rw [← h.literals_eq, List.Nodup, Rule.Apart, List.pairwise_map, List.pairwise_map]
  exact iff_of_eq (congrArg (List.Pairwise · _) (by simp [Rule.side]))

theorem costs_iff :
    (∀ rule ∈ head :: tail, ∀ cost ∈ rule.insertionCost, Cost.isAcceptable cost = true) ↔
      ∀ cost ∈ item.insertionCost, Cost.isAcceptable cost = true := by
  rw [List.forall_mem_cons, h.head]
  refine and_iff_left fun rule mem cost set => ?_
  rw [h.tail rule mem] at set
  exact nomatch set

theorem checks_iff :
    (∀ rule ∈ (head :: tail).map Rule.word, grammar.checkRule name rule = .ok ()) ↔
      (∀ literal ∈ item.literals, isToken literal = true) ∧
        (∀ form ∈ item.forms, Cost.isAcceptable form.penalty = true) ∧
        ∀ cost ∈ item.insertionCost, Cost.isAcceptable cost = true := by
  have each : ∀ rule ∈ head :: tail, rule.check name = .ok () ↔
      isToken rule.literal = true ∧ Cost.isAcceptable rule.penalty = true ∧
        ∀ cost ∈ rule.insertionCost, Cost.isAcceptable cost = true := by
    intro rule mem
    obtain ⟨form, -, same⟩ := exists_of_mem_left h.forms mem
    obtain ⟨category, range, -⟩ := same.plain
    rw [WordRule.check_ok, category, range]
    simp
  have penalties : (∀ rule ∈ head :: tail, Cost.isAcceptable rule.penalty = true) ↔
      ∀ form ∈ item.forms, Cost.isAcceptable form.penalty = true :=
    forall_mem_iff h.forms fun _ _ same => by rw [same.penalty]
  rw [List.forall_mem_map, ← h.literals_eq, List.forall_mem_map, ← penalties, ← h.costs_iff]
  rw [← forall₂_and, ← forall₂_and]
  exact forall₂_congr each

/-- An item is made exactly when it is well formed. -/
theorem defineWords_ok_iff (fresh : grammar.symbol? name = none) :
    (∃ made, grammar.defineWords name wordClass text (head :: tail) = .ok made) ↔
      item.IsWellFormed := by
  simp only [Grammar.defineWords, Grammar.define_eq_ok, exists_and_left, exists_eq', and_true,
    fresh, true_and, h.checks_iff, h.apart_iff]
  constructor
  · rintro ⟨⟨tokens, penalties, cost⟩, distinct⟩
    exact ⟨cost, penalties, tokens, distinct⟩
  · rintro ⟨cost, penalties, tokens, distinct⟩
    exact ⟨⟨tokens, penalties, cost⟩, distinct⟩

theorem seed_eq {vocabulary : Option VocabularyItem} :
    Entry.seed { Entry.ofName name with
      rules := (head :: tail).map .word, item := vocabulary } none =
        item.insertionCost.map fun cost => ⟨cost + 0, [item.first.text], []⟩ := by
  have form := (List.forall₂_cons.mp h.forms).1
  have foremost : head.filler? =
      item.insertionCost.map fun cost => ⟨cost + 0, [item.first.text], []⟩ := by
    rw [WordRule.filler?, WordRule.display, h.head, form.penalty, h.free, form.text,
      form.plain.2.2]
    rfl
  have later : tail.filterMap WordRule.filler? = [] :=
    List.filterMap_eq_nil_iff.mpr fun rule mem => by
      rw [WordRule.filler?, h.tail rule mem]
      rfl
  have words : (head :: tail).filterMap WordRule.filler? = head.filler?.toList := by
    rw [List.filterMap_cons, later]
    cases head.filler? <;> rfl
  have seed : Entry.seed { Entry.ofName name with
      rules := (head :: tail).map .word, item := vocabulary } none =
        ((head :: tail).filterMap WordRule.filler?).foldl Filler.offer none := by
    unfold Entry.seed
    dsimp only
    rw [List.filterMap_map]
    rfl
  rw [seed, words, foremost]
  cases item.insertionCost <;> rfl

/-- What a builder has made: a symbol with the rules of the item, filled at its insertion cost. -/
theorem of_defineWords (sound : grammar.IsSound)
    (made : grammar.defineWords name wordClass text (head :: tail) = .ok (grown, symbol)) :
    grown.nameOf symbol = name ∧ grown.rulesOf symbol = (head :: tail).map .word ∧
      grown.item? symbol = some ⟨wordClass, false, [text]⟩ ∧
      grown.fillers.of? symbol =
        item.insertionCost.map fun cost => ⟨cost + 0, [item.first.text], []⟩ := by
  obtain ⟨-, -, -, pushed⟩ := Grammar.define_eq_ok.mp made
  have last : (⟨grammar.size⟩ : Symbol) = symbol := congrArg Prod.snd pushed
  have found := Grammar.entryOf?_push_self grammar { Entry.ofName name with
    rules := (head :: tail).map .word, item := some ⟨wordClass, false, [text]⟩ }
  rw [pushed] at found
  have rules := Grammar.rulesOf_eq found
  have words : ∀ rule ∈ (head :: tail).map Rule.word, rule.isWord = true :=
    List.forall_mem_map.mpr fun _ _ => rfl
  have added : symbol ≠ .empty := by
    rintro rfl
    have known : Symbol.empty.index < grammar.size :=
      Grammar.entryOf?_isSome.mp (sound.empty ▸ rfl)
    exact absurd known (last ▸ Nat.lt_irrefl _)
  refine ⟨by rw [Grammar.nameOf, found]; rfl, rules, by rw [Grammar.item?, found]; rfl, ?_⟩
  rw [Grammar.fillers_of?_of_words (rules ▸ words), Grammar.seeds_of?, found, Option.bind_some,
    if_neg added, h.seed_eq]

end HasRules

end WordItem

namespace Grammar

/-- A symbol with the name and the rules of an item, and what is displayed for the item. Where the
item may be inserted, at its cost, the symbol is filled by just that. -/
structure IsItem (grammar : Grammar Float) (symbol : Symbol) (name : String)
    (item : WordItem Float) : Prop where
  name : grammar.nameOf symbol = SymbolName.compose [name]
  rules : ∃ head tail, grammar.rulesOf symbol = (head :: tail).map .word ∧ item.HasRules head tail
  text : (grammar.item? symbol).map (·.text) = some [item.first.text]
  filler : Option.Rel (fun cost filler => (filler.cost == cost) = true ∧
    (cost ≠ -0.0 → filler.cost = cost) ∧ filler.text = [item.first.text] ∧ filler.meanings = [])
    item.insertionCost (grammar.fillers.of? symbol)

theorem isItem_of_defineWords {grammar grown : Grammar Float} (sound : grammar.IsSound)
    {symbol : Symbol} {name : String} {wordClass : WordClass} {item : WordItem Float}
    {head : WordRule Float} {tail : List (WordRule Float)} (h : item.HasRules head tail)
    (made : grammar.defineWords (SymbolName.compose [name]) wordClass item.first.text
      (head :: tail) = .ok (grown, symbol)) : grown.IsItem symbol name item := by
  have fresh := (define_eq_ok.mp made).1
  have formed := (h.defineWords_ok_iff fresh).mp ⟨_, made⟩
  obtain ⟨named, rules, vocabulary, filler⟩ := h.of_defineWords sound made
  refine ⟨named, ⟨head, tail, rules, h⟩, vocabulary ▸ rfl, ?_⟩
  rw [filler]
  cases declared : item.insertionCost with
  | none => exact .none
  | some cost =>
    have finite : cost.isFinite = true :=
      (Bool.and_eq_true_iff.mp (formed.cost cost declared)).1
    refine .some ⟨add_zero_beq finite, fun nonzero => ?_, rfl, rfl⟩
    exact (add_zero_cases finite).resolve_right fun zero => nonzero zero.1

/-- After every run a verb, a pronoun or an invariable word with a new name is accepted exactly when
its name is not empty and the item is well formed, and what is made then is the item. -/
theorem run_makes_items {operations : List (Operation Float)} {name : String}
    (fresh : (run operations).symbol? (SymbolName.compose [name]) = none) :
    (∀ forms spellings insertionCost,
      ((∃ made, (run operations).addVerb name forms spellings insertionCost = .ok made) ↔
        name ≠ "" ∧ (WordItem.ofVerb forms spellings insertionCost).IsWellFormed) ∧
      ∀ grown symbol,
        (run operations).addVerb name forms spellings insertionCost = .ok (grown, symbol) →
          grown.IsItem symbol name (.ofVerb forms spellings insertionCost)) ∧
    (∀ forms insertionCost,
      ((∃ made, (run operations).addPronoun name forms insertionCost = .ok made) ↔
        name ≠ "" ∧ (WordItem.ofPronoun forms insertionCost).IsWellFormed) ∧
      ∀ grown symbol,
        (run operations).addPronoun name forms insertionCost = .ok (grown, symbol) →
          grown.IsItem symbol name (.ofPronoun forms insertionCost)) ∧
    ∀ accepted substitutes insertionCost,
      ((∃ made,
          (run operations).addInvariable name accepted substitutes insertionCost = .ok made) ↔
        name ≠ "" ∧ ∃ first more, accepted = first :: more ∧
          (WordItem.ofTerms first more substitutes insertionCost).IsWellFormed) ∧
      ∀ grown symbol,
        (run operations).addInvariable name accepted substitutes insertionCost =
          .ok (grown, symbol) →
        ∃ first more, accepted = first :: more ∧
          grown.IsItem symbol name (.ofTerms first more substitutes insertionCost) := by
  have sound := IsSound.run operations
  refine ⟨fun forms spellings insertionCost => ?_, fun forms insertionCost => ?_,
    fun accepted substitutes insertionCost => ?_⟩
  · obtain ⟨head, tail, rules, h⟩ := WordItem.ofVerb_hasRules forms spellings insertionCost
    simp only [addVerb_eq_ok, rules, exists_and_left, h.defineWords_ok_iff fresh]
    refine ⟨and_congr_right' (and_iff_right_of_imp fun formed => formed.cost), ?_⟩
    exact fun grown symbol made => isItem_of_defineWords sound h made.2.2
  · obtain ⟨head, tail, rules, h⟩ := WordItem.ofPronoun_hasRules forms insertionCost
    simp only [addPronoun_eq_ok, rules, exists_and_left, h.defineWords_ok_iff fresh]
    refine ⟨and_congr_right' (and_iff_right_of_imp fun formed => formed.cost), ?_⟩
    exact fun grown symbol made => isItem_of_defineWords sound h made.2.2
  · simp only [addInvariable_eq_ok]
    constructor
    · constructor
      · rintro ⟨made, named, -, first, more, same, -, defined⟩
        obtain ⟨head, tail, rules, h⟩ :=
          WordItem.ofTerms_hasRules first more substitutes insertionCost
        rw [rules] at defined
        exact ⟨named, first, more, same, (h.defineWords_ok_iff fresh).mp ⟨made, defined⟩⟩
      · rintro ⟨named, first, more, same, formed⟩
        obtain ⟨head, tail, rules, h⟩ :=
          WordItem.ofTerms_hasRules first more substitutes insertionCost
        obtain ⟨made, defined⟩ := (h.defineWords_ok_iff fresh).mpr formed
        refine ⟨made, named, formed.cost, first, more, same, fun substitute mem => ?_, ?_⟩
        · refine formed.penalties ⟨substitute.term, .fixed first, substitute.penalty⟩ ?_
          exact List.mem_cons_of_mem _ (List.mem_append_right _ (List.mem_map_of_mem mem))
        · rw [rules]
          exact defined
    · rintro grown symbol ⟨-, -, first, more, same, -, defined⟩
      obtain ⟨head, tail, rules, h⟩ :=
        WordItem.ofTerms_hasRules first more substitutes insertionCost
      rw [rules] at defined
      exact ⟨first, more, same, isItem_of_defineWords sound h defined⟩

def seated : List (Operation Float) :=
  [.addVerb "sit" ⟨"sit", "sits", "sit", "sat"⟩ ⟨none, some "sitting", none⟩ none]

/-- A pronoun with one form for both cases is accepted, and stands for itself at its cost. A verb
whose past is spelled like its first person is refused, since only the plural may be. -/
theorem seated_makes_items :
    (run seated).symbol? (SymbolName.compose ["you"]) = none ∧
      (run seated).symbol? (SymbolName.compose ["put"]) = none ∧
      (∃ grown symbol,
        (run seated).addPronoun "you" ⟨"you", "you"⟩ (some 0.5) = .ok (grown, symbol) ∧
          grown.IsItem symbol "you" (.ofPronoun ⟨"you", "you"⟩ (some 0.5))) ∧
      ¬ ∃ made, (run seated).addVerb "put" ⟨"put", "puts", "put", "put"⟩ ⟨none, none, none⟩ none =
        .ok made := by
  have you : (run seated).symbol? (SymbolName.compose ["you"]) = none := by decide +kernel
  have put : (run seated).symbol? (SymbolName.compose ["put"]) = none := by decide +kernel
  refine ⟨you, put, ?_, ?_⟩
  · obtain ⟨accepted, made⟩ := (run_makes_items you).2.1 ⟨"you", "you"⟩ (some 0.5)
    have formed : (WordItem.ofPronoun ⟨"you", "you"⟩ (some (0.5 : Float))).IsWellFormed :=
      ⟨fun cost given => Option.some.inj given ▸ by decide +kernel, by decide +kernel,
        by decide +kernel, by decide +kernel⟩
    obtain ⟨⟨grown, symbol⟩, built⟩ := accepted.mpr ⟨by decide, formed⟩
    exact ⟨grown, symbol, built, made grown symbol built⟩
  · obtain ⟨accepted, -⟩ :=
      (run_makes_items put).1 ⟨"put", "puts", "put", "put"⟩ ⟨none, none, none⟩ none
    rw [accepted]
    exact fun ⟨_, formed⟩ => absurd formed.distinct (by decide +kernel)

end Grammar

end PhraseGrammar
