import PhraseGrammar.Proofs.Contributions

/-! Conditions that derivation hands on. Rules and fillers are made of rules and fillers; what holds
of those that authors put into a grammar, and passes from parts to what is made of them, holds of
all that a run leaves. -/

namespace PhraseGrammar

variable {κ : Type} [Cost κ]

/-- Conditions on rules and on fillers that pass from those that are there to those that a grammar
with given signatures makes of them. -/
structure Hereditary (signatures : Signatures κ) (P : Rule κ → Prop) (F : Filler κ → Prop) :
    Prop where
  nothing : F .nothing
  quiet : ∀ (slot : Slot) {filler : Filler κ}, F filler → F (slot.quiet filler)
  word : ∀ {rule : WordRule κ} {filler : Filler κ}, P (.word rule) →
    rule.filler? = some filler → F filler
  declared : ∀ {rule : PhraseRule κ} {item : Option VocabularyItem} {filler : Filler κ},
    P (.phrase rule) → rule.declaredFiller? item = some filler → F filler
  composed : ∀ {rule : PhraseRule κ} {parts : List (Filler κ)} {meanings : List Meaning},
    P (.phrase rule) → (∀ part ∈ parts, F part) →
    signatures.reduce? rule.meaning ((rule.withElided parts).flatMap (·.meanings)) =
      some meanings →
    F { cost := (rule.withElided parts).foldl (fun cost part => cost + part.cost) rule.cost
        text := rule.joinedText (rule.withElided parts)
        meanings }
  remainder : ∀ {rule : PhraseRule κ} {vanishing : Fillers κ}, P (.phrase rule) →
    (∀ child ∈ rule.vanishingChildren vanishing, F child.filler) →
    P (.phrase (rule.remainder vanishing))
  zeroFiller : ∀ {rule : PhraseRule κ} {vanishing : Fillers κ}, P (.phrase rule) →
    (∀ child ∈ rule.vanishingChildren vanishing, F child.filler) →
    F (rule.zeroFiller signatures vanishing)
  eliding : ∀ {rule : PhraseRule κ} (pair : Slot × Slot) (place : Place) {filler : Filler κ},
    P (.phrase rule) → F filler → P (.phrase (rule.eliding pair place filler))
  swapping : ∀ {rule : PhraseRule κ} (pair : Slot × Slot) {cost : κ}, P (.phrase rule) →
    cost ∈ rule.transpositionCost → P (.phrase (rule.swapping pair cost))

namespace Hereditary

variable {signatures : Signatures κ} {P : Rule κ → Prop} {F : Filler κ → Prop}
  {rule made : PhraseRule κ} {best : Fillers κ} {filler : Filler κ}

theorem slotFiller (h : Hereditary signatures P F) (all : best.All fun _ => F) {slot : Slot}
    {position : Nat} (found : rule.slotFiller? best slot position = some filler) : F filler := by
  unfold PhraseRule.slotFiller? at found
  split at found
  · cases found
  · split at found
    · exact Option.some.inj found ▸ h.nothing
    · exact all _ _ found

theorem ruleFiller (h : Hereditary signatures P F) (all : best.All fun _ => F)
    {item : Option VocabularyItem} (held : P (.phrase rule))
    (made : rule.filler? signatures item best = some filler) : F filler := by
  obtain ⟨-, declared | composed⟩ := PhraseRule.filler?_cases made
  · exact h.declared held declared
  · obtain ⟨parts, meanings, found, reduced, rfl⟩ := PhraseRule.composedFiller?_eq_some.mp composed
    refine h.composed held (fun part mem => ?_) reduced
    obtain ⟨⟨slot, position⟩, -, same⟩ := exists_of_mem_right (mapM_eq_some.mp found) mem
    obtain ⟨child, given, rfl⟩ := Option.map_eq_some_iff.mp same
    exact h.quiet slot (h.slotFiller all given)

theorem vanishingChild (h : Hereditary signatures P F) (all : best.All fun _ => F) :
    ∀ child ∈ rule.vanishingChildren best, F child.filler := by
  intro child mem
  obtain ⟨⟨slot, position⟩, -, given⟩ := List.mem_filterMap.mp mem
  obtain ⟨filler, found, rfl⟩ := Option.map_eq_some_iff.mp given
  exact h.quiet slot (all _ _ found)

theorem insertion (h : Hereditary signatures P F) (all : best.All fun _ => F)
    (held : P (.phrase rule)) (offered : rule.insertion? best = some made) :
    P (.phrase made) := by
  obtain ⟨-, -, pair, place, filler, -, chosen, rfl⟩ := PhraseRule.insertion?_eq_some.mp offered
  have given := PhraseRule.cheaperPlace_eq_some chosen
  cases place with
  | first => exact h.eliding pair _ held (h.slotFiller all given)
  | second => exact h.eliding pair _ held (h.slotFiller all given)

theorem transposition (h : Hereditary signatures P F) (held : P (.phrase rule))
    (offered : rule.transposition? = some made) : P (.phrase made) := by
  obtain ⟨-, pair, cost, -, declared, rfl⟩ := PhraseRule.transposition?_eq_some.mp offered
  exact h.swapping pair held declared

end Hereditary

def Contribution.rules : Contribution κ → List (Rule κ)
  | .symbol entry => entry.rules
  | .category name _ => [.word (.ofCategory name)]
  | .rule _ added => [added]
  | .signature _ _ => []

namespace Grammar

variable {grammar : Grammar κ} {P : Rule κ → Prop} {F : Filler κ → Prop}

omit [Cost κ] in
structure Obeys (P : Rule κ → Prop) (F : Filler κ → Prop) (grammar : Grammar κ) : Prop where
  rules : grammar.AllRules P
  zeroFillers : ∀ symbol filler, grammar.zeroFiller? symbol = some filler → F filler

theorem meaning_of_mem_verbRules {forms : VerbForms} {spellings : VerbSpellings}
    {insertionCost : Option κ} :
    ∀ rule ∈ verbRules forms spellings insertionCost, rule.meaning = none := by
  simp [verbRules, verbRule, WordRule.ofLiteral, or_imp, forall_and]

theorem meaning_of_mem_invariableRules {first : String} {more : List String}
    {substitutes : List (Substitute κ)} {insertionCost : Option κ} :
    ∀ rule ∈ invariableRules first more substitutes insertionCost, rule.meaning = none := by
  simp [invariableRules, WordRule.ofLiteral, or_imp, forall_and]

theorem meaning_of_mem_pronounRules {forms : PronounForms} {insertionCost : Option κ} :
    ∀ rule ∈ pronounRules forms insertionCost, rule.meaning = none := by
  simp [pronounRules, WordRule.ofLiteral]

theorem meanings_of_mem_sequenceRules {text : List Wording} {first : SequenceTerm κ}
    {more substitutes : List (SequenceTerm κ)} {insertionCost : Option κ} :
    ∀ rule ∈ sequenceRules text first more substitutes insertionCost,
      (Rule.phrase rule).meanings = [] := by
  simp [sequenceRules, SequenceTerm.rule, Rule.meanings, PhraseRule.ofSymbols, PhraseRule.ofSlots,
    or_imp, forall_and]

/-- The rules of the vocabulary and the placeholders have no meanings but categories; the others are
those that are given. -/
theorem of_mem_rules_of_asked {operation : Operation κ} {contribution : Contribution κ}
    (asked : grammar.contribution? operation = some contribution) (supplies : operation.Supplies P)
    {rule : Rule κ} (mem : rule ∈ contribution.rules) :
    P rule ∨ rule.meanings = [] ∨ ∃ name, rule = .word (.ofCategory name) := by
  have words : ∀ rules : List (WordRule κ), (∀ rule ∈ rules, rule.meaning = none) →
      rule ∈ rules.map Rule.word → rule.meanings = [] := by
    intro rules all mem
    obtain ⟨word, made, rfl⟩ := List.mem_map.mp mem
    rw [Rule.meanings, all word made, Option.toList_none]
  have terms : ∀ rules : List (PhraseRule κ),
      (∀ rule ∈ rules, (Rule.phrase rule).meanings = []) → rule ∈ rules.map Rule.phrase →
      rule.meanings = [] := by
    intro rules all mem
    obtain ⟨phrase, made, rfl⟩ := List.mem_map.mp mem
    exact all phrase made
  unfold contribution? at asked
  split at asked
  all_goals simp only [Option.some.injEq, reduceCtorEq] at asked
  all_goals subst asked
  case h_1 => cases mem
  case h_2 => exact .inl (List.mem_singleton.mp mem ▸ supplies)
  case h_4 => exact .inl (List.mem_singleton.mp mem ▸ supplies)
  case h_5 => exact .inr (.inl (words _ meaning_of_mem_verbRules mem))
  case h_7 => exact .inr (.inl (words _ meaning_of_mem_invariableRules mem))
  case h_8 => exact .inr (.inl (words _ meaning_of_mem_pronounRules mem))
  case h_10 => exact .inr (.inl (terms _ meanings_of_mem_sequenceRules mem))
  case h_11 => exact .inr (.inl (terms _ meanings_of_mem_sequenceRules mem))
  case h_12 => exact .inr (.inr ⟨_, List.mem_singleton.mp mem⟩)
  case h_13 => cases mem
  case h_14 => cases mem

namespace Obeys

omit [Cost κ] in
theorem new : (new : Grammar κ).Obeys P F where
  rules := .new
  zeroFillers := by
    intro symbol filler kept
    obtain ⟨entry, found, kept⟩ := Option.bind_eq_some_iff.mp kept
    have mem := List.mem_of_getElem? found
    simp only [Grammar.new, List.mem_cons, List.not_mem_nil, or_false] at mem
    rcases mem with rfl | rfl
    · cases kept
    · cases kept

theorem extendBy {contribution : Contribution κ} (h : grammar.Obeys P F)
    (given : ∀ rule ∈ contribution.rules, P rule)
    (unfilled : ∀ entry, contribution = .symbol entry → entry.zeroFiller = none) :
    (grammar.extendBy contribution).Obeys P F := by
  have pushed : ∀ entry : Entry κ, (∀ rule ∈ entry.rules, P rule) → entry.zeroFiller = none →
      (grammar.push entry).1.Obeys P F := by
    intro entry rules none
    refine ⟨fun symbol rule mem => ?_, fun symbol filler kept => ?_⟩
    · obtain ⟨owner, found, here⟩ := mem_rulesOf.mp mem
      rcases of_entryOf?_push found with old | ⟨-, rfl⟩
      · exact h.rules symbol rule (mem_rulesOf.mpr ⟨owner, old, here⟩)
      · exact rules rule here
    · obtain ⟨owner, found, here⟩ := Option.bind_eq_some_iff.mp kept
      rcases of_entryOf?_push found with old | ⟨-, rfl⟩
      · refine h.zeroFillers symbol filler ?_
        rw [zeroFiller?, old]
        exact here
      · cases none.symm.trans here
  cases contribution with
  | symbol entry => exact pushed entry given (unfilled entry rfl)
  | category name entities =>
    obtain ⟨rules, zeroFillers⟩ := pushed (.ofCategory name) given rfl
    exact ⟨rules, zeroFillers⟩
  | rule symbol rule =>
    rw [Grammar.extendBy, appendRule_eq_setRules]
    refine ⟨h.rules.setRules fun other mem => ?_, fun other filler kept => ?_⟩
    · rcases List.mem_append.mp mem with old | new
      · exact h.rules symbol other old
      · exact given other new
    · rw [zeroFiller?_eq_of_bare (bare_setRules ..)] at kept
      exact h.zeroFillers other filler kept
  | signature name signature => exact ⟨h.rules, h.zeroFillers⟩

/-- What holds of all rules that pass their check holds of those that a builder adds. -/
theorem step {R : Rule κ → Prop} {grown : Grammar κ} (h : grammar.Obeys P F)
    (checked : ∀ {name : String} {rule : Rule κ}, grammar.checkRule name rule = .ok () → P rule)
    (step : Step R grammar grown) : grown.Obeys P F := by
  cases step with
  | @define name rules item _ _ valid =>
    have given : ∀ rule ∈ rules, P rule :=
      fun rule mem => checked ((validateAll_ok.mp valid).2.1 rule mem)
    have grown : (grammar.extendBy (.symbol { Entry.ofName name with rules, item })).Obeys P F :=
      h.extendBy given (by rintro _ ⟨⟩; rfl)
    exact grown
  | @append symbol entry rule _ _ _ _ valid =>
    have grown : (grammar.extendBy (.rule symbol rule)).Obeys P F :=
      h.extendBy (List.forall_mem_singleton.mpr (checked (validate_ok.mp valid).1)) nofun
    exact grown
  | declare signatures => exact ⟨h.rules, h.zeroFillers⟩
  | register categories => exact ⟨h.rules, h.zeroFillers⟩

section Derivation

variable (hereditary : Hereditary grammar.signatures P F)

include hereditary

theorem fillers (h : grammar.Obeys P F) : grammar.fillers.All fun _ => F := by
  refine fillers_induction (all_seeds hereditary.nothing (h.zeroFillers _ _) ?_) ?_
  · intro symbol rule filler mem made
    exact hereditary.word (h.rules symbol _ mem) made
  · intro symbol rule best filler mem _ held made
    exact hereditary.ruleFiller held (h.rules symbol _ mem) made

theorem vanishing (h : grammar.Obeys P F) : grammar.vanishing.All fun _ => F := by
  intro symbol filler found
  rw [vanishing_of?] at found
  split at found
  case isFalse => cases found
  case isTrue =>
    split at found
    case isTrue => exact Option.some.inj found ▸ hereditary.nothing
    case isFalse =>
      split at found
      case isTrue => exact h.zeroFillers symbol filler found
      case isFalse => cases found

theorem collapseRound (h : grammar.Obeys P F) : grammar.collapseRound.1.Obeys P F where
  rules := h.rules.collapseRound_of_mem fun mem _ _ =>
    hereditary.remainder (h.rules _ _ mem) (hereditary.vanishingChild (h.vanishing hereditary))
  zeroFillers := by
    intro symbol filler kept
    rcases collapseRound_cases grammar symbol with same | ⟨before, found, collapsed⟩
    · rw [zeroFiller?, same] at kept
      exact h.zeroFillers symbol filler kept
    · rw [zeroFiller?, collapsed, Option.bind_some] at kept
      rcases Filler.mem_foldl_offer kept with old | new
      · refine h.zeroFillers symbol filler ?_
        rw [zeroFiller?, found]
        exact old
      · obtain ⟨rule, affected, -, rfl⟩ := Entry.mem_zeroFillers.mp new
        have mem := mem_rulesOf.mpr ⟨before, found, (Entry.mem_affected.mp affected).1⟩
        exact hereditary.zeroFiller (h.rules symbol _ mem)
          (hereditary.vanishingChild (h.vanishing hereditary))

theorem insertionRound (h : grammar.Obeys P F) : grammar.insertionRound.1.Obeys P F where
  rules := h.rules.insertionRound_of_offers fun held offered =>
    hereditary.insertion (h.fillers hereditary) held offered
  zeroFillers := by
    intro symbol filler kept
    rw [Grammar.insertionRound, zeroFiller?_eq_of_bare (bare_insertWith _)] at kept
    exact h.zeroFillers symbol filler kept

theorem transpose (h : grammar.Obeys P F) : grammar.transpose.1.Obeys P F where
  rules := h.rules.transpose_of_offers hereditary.transposition
  zeroFillers := by
    intro symbol filler kept
    rw [zeroFiller?_eq_of_bare bare_transpose] at kept
    exact h.zeroFillers symbol filler kept

theorem derive (h : grammar.Obeys P F) : grammar.derive.1.Obeys P F := by
  have keeps : ∀ {derived : Grammar κ}, grammar.SameDeclarations derived →
      Hereditary derived.signatures P F := fun same => same.signatures.symm ▸ hereditary
  refine (derive_induction
    (Q := fun derived => grammar.SameDeclarations derived ∧ derived.Obeys P F)
    (fun ⟨same, held⟩ => ⟨?_, held.collapseRound (keeps same)⟩)
    (fun ⟨same, held⟩ => ⟨?_, held.insertionRound (keeps same)⟩)
    (fun ⟨same, held⟩ => ⟨?_, held.transpose (keeps same)⟩) ⟨.refl grammar, h⟩).2
  · exact same.trans (.collapseRound _)
  · exact same.trans (.of_bare (bare_insertWith _))
  · exact same.trans (.of_bare bare_transpose)

end Derivation

end Obeys

end Grammar

end PhraseGrammar
