import PhraseGrammar.Proofs.CanonicalMeanings
import PhraseGrammar.Proofs.Inheritance

/-! Meanings in derived grammars. Derivation composes the meanings of rules and fillers anew and
puts them side by side; all that it comes to is admitted by the signatures of the grammar, if the
meanings are that authors put on rules. -/

namespace PhraseGrammar

variable {κ : Type}

namespace Signatures

variable {signatures earlier : Signatures κ} {xs ys reduced : List Meaning}

def AdmitsAll (signatures : Signatures κ) (meanings : List Meaning) : Prop :=
  ∀ meaning ∈ meanings, signatures.Admits meaning

theorem admitsAll_nil : signatures.AdmitsAll [] :=
  fun _ mem => absurd mem List.not_mem_nil

theorem admitsAll_append :
    signatures.AdmitsAll (xs ++ ys) ↔ signatures.AdmitsAll xs ∧ signatures.AdmitsAll ys :=
  List.forall_mem_append

theorem AdmitsAll.reduce {meaning : Option Meaning} (kept : earlier.KeptBy signatures)
    (own : signatures.AdmitsAll meaning.toList) (children : signatures.AdmitsAll xs)
    (h : earlier.reduce? meaning xs = some reduced) : signatures.AdmitsAll reduced := by
  cases meaning with
  | none => exact Option.some.inj h ▸ children
  | some meaning =>
    rw [reduce?] at h
    split at h
    case isTrue => exact Option.some.inj h ▸ admitsAll_append.mpr ⟨own, children⟩
    case isFalse =>
      cases result : earlier.compose meaning xs with
      | error fault =>
        rw [result] at h
        cases h
      | ok composed =>
        rw [result] at h
        obtain rfl : [composed] = reduced := Option.some.inj h
        exact List.forall_mem_singleton.mpr (.compose children (kept.compose result))

/-- All meanings of a rule are admitted, those of an elided child included. -/
def AdmitsRule (signatures : Signatures κ) (rule : Rule κ) : Prop :=
  signatures.AdmitsAll rule.meanings

def AdmitsFiller (signatures : Signatures κ) (filler : Filler κ) : Prop :=
  signatures.AdmitsAll filler.meanings

variable {rule : PhraseRule κ}

theorem admitsRule_phrase :
    signatures.AdmitsRule (.phrase rule) ↔ signatures.AdmitsAll rule.meaning.toList ∧
      ∀ elided ∈ rule.elided, signatures.AdmitsFiller elided.filler := by
  rw [AdmitsRule, Rule.meanings, admitsAll_append]
  refine and_congr_right' ?_
  cases rule.elided with
  | none =>
    exact ⟨fun _ _ left => (Option.not_mem_none _ left).elim, fun _ => admitsAll_nil⟩
  | some elided =>
    exact ⟨fun h _ left => Option.mem_some_iff.mp left ▸ h, fun h => h elided rfl⟩

variable [Cost κ]

theorem admitsAll_withElided (h : signatures.AdmitsRule (.phrase rule)) {parts : List (Filler κ)}
    (all : ∀ part ∈ parts, signatures.AdmitsFiller part) :
    signatures.AdmitsAll ((rule.withElided parts).flatMap (·.meanings)) := by
  have parts : ∀ part ∈ rule.withElided parts, signatures.AdmitsFiller part := by
    intro part mem
    unfold PhraseRule.withElided at mem
    cases left : rule.elided with
    | none =>
      rw [left] at mem
      exact all part mem
    | some elided =>
      rw [left] at mem
      rcases (List.mem_insertIdx (Nat.min_le_right _ _)).mp mem with rfl | mem
      · have held : signatures.AdmitsFiller elided.filler := (admitsRule_phrase.mp h).2 _ left
        exact held
      · exact all part mem
  intro meaning mem
  obtain ⟨part, there, inside⟩ := List.mem_flatMap.mp mem
  exact parts part there meaning inside

/-- Admitted meanings stay admitted in whatever derivation makes of them. -/
theorem hereditary_admits (kept : earlier.KeptBy signatures) :
    Hereditary earlier signatures.AdmitsRule signatures.AdmitsFiller where
  nothing := admitsAll_nil
  quiet slot filler h := by
    unfold Slot.quiet
    split
    · exact h
    · exact h
  word {rule filler} h made := by
    obtain ⟨cost, -, rfl⟩ := Option.map_eq_some_iff.mp made
    exact h
  declared {rule item filler} h made := by
    obtain ⟨cost, -, rfl⟩ := Option.map_eq_some_iff.mp made
    exact (admitsRule_phrase.mp h).1
  composed h all reduced :=
    AdmitsAll.reduce kept (admitsRule_phrase.mp h).1 (admitsAll_withElided h all) reduced
  remainder {rule vanishing} h all := by
    obtain ⟨own, left⟩ := admitsRule_phrase.mp h
    refine admitsRule_phrase.mpr ⟨own, fun elided mem => ?_⟩
    rcases Option.or_eq_some_iff.mp mem with gone | ⟨-, old⟩
    · exact all elided (List.mem_of_find?_eq_some gone)
    · exact left elided old
  zeroFiller {rule vanishing} h all := by
    have own := (admitsRule_phrase.mp h).1
    have children : signatures.AdmitsAll ((rule.withElided
        ((rule.vanishingChildren vanishing).map (·.filler))).flatMap (·.meanings)) :=
      admitsAll_withElided h (List.forall_mem_map.mpr all)
    unfold PhraseRule.zeroFiller AdmitsFiller
    dsimp only
    cases result : earlier.reduce? rule.meaning ((rule.withElided
        ((rule.vanishingChildren vanishing).map (·.filler))).flatMap (·.meanings)) with
    | none => exact admitsAll_append.mpr ⟨own, children⟩
    | some reduced => exact AdmitsAll.reduce kept own children result
  eliding pair place filler h admitted := by
    refine admitsRule_phrase.mpr ⟨(admitsRule_phrase.mp h).1, ?_⟩
    rintro _ ⟨⟩
    exact admitted
  swapping pair cost h declared := admitsRule_phrase.mpr ⟨(admitsRule_phrase.mp h).1, nofun⟩

end Signatures

namespace Operation

theorem supplies_of_mem_calls {P : Rule κ → Prop} {operation called : Operation κ}
    (h : operation.Supplies P) (mem : called ∈ Grammar.calls operation) : called.Supplies P := by
  cases operation with
  | addRules rules =>
    obtain ⟨source, there, rfl⟩ := List.mem_map.mp mem
    exact h source there
  | _ => exact List.mem_singleton.mp mem ▸ h

def GivesMade [Cost κ] (signatures : Signatures κ) (operation : Operation κ) : Prop :=
  operation.Supplies fun rule => ∀ meaning ∈ rule.meanings, signatures.Makes meaning

end Operation

namespace Grammar

variable [Cost κ] {grammar : Grammar κ} {contribution : Contribution κ} {operation : Operation κ}

theorem keptBy_extendBy (lacks : grammar.Lacks contribution) :
    grammar.signatures.KeptBy (grammar.extendBy contribution).signatures := by
  cases contribution with
  | signature name signature => exact Signatures.keptBy_insert lacks signature
  | symbol entry => exact .refl _
  | category name entities => exact .refl _
  | rule symbol rule => exact .refl _

theorem admitsRule_of_asked {signatures : Signatures κ}
    (asked : grammar.contribution? operation = some contribution)
    (made : operation.GivesMade signatures) :
    ∀ rule ∈ contribution.rules, signatures.AdmitsRule rule := by
  intro rule mem
  rcases of_mem_rules_of_asked asked made mem with given | none | ⟨name, rfl⟩
  · exact fun meaning mem => (given meaning mem).admits
  · exact fun meaning mem => absurd (none ▸ mem) List.not_mem_nil
  · exact List.forall_mem_singleton.mpr (.entity name)

/-- If all meanings that are given with rules are made by the signatures that a run comes to, these
admit all meanings that the grammar holds: those of rules and of the children that they leave out,
those of the fillers that symbols keep, and those of the fillers that are found. -/
theorem run_admits {operations : List (Operation κ)}
    (made : ∀ operation ∈ operations, operation.GivesMade (run operations).signatures) :
    (∀ symbol, ∀ rule ∈ (run operations).rulesOf symbol, ∀ meaning ∈ rule.meanings,
        (run operations).signatures.Admits meaning) ∧
      (∀ symbol filler, (run operations).zeroFiller? symbol = some filler →
        ∀ meaning ∈ filler.meanings, (run operations).signatures.Admits meaning) ∧
      ∀ symbol filler, (run operations).fillers.of? symbol = some filler →
        ∀ meaning ∈ filler.meanings, (run operations).signatures.Admits meaning := by
  generalize final : (run operations).signatures = signatures at made
  have obeys : (run operations).signatures.KeptBy signatures →
      (run operations).Obeys signatures.AdmitsRule signatures.AdmitsFiller := by
    refine contributions_induction
      (Q := fun grammar => grammar.signatures.KeptBy signatures →
        grammar.Obeys signatures.AdmitsRule signatures.AdmitsFiller)
      (fun _ => .new) ?_ ?_
    · intro grammar operation symbol contribution mem sound _ contributes held kept
      obtain ⟨caller, there, called⟩ := List.mem_flatMap.mp mem
      have before := held ((keptBy_extendBy contributes.lacks).trans kept)
      refine before.extendBy ?_ fun entry same => ?_
      · exact admitsRule_of_asked contributes.asked
          (Operation.supplies_of_mem_calls (made caller there) called)
      · obtain ⟨parts, rules, item, rfl⟩ := entry_of_asked (same ▸ contributes.asked)
        rfl
    · intro grammar sound held kept
      rw [(SameDeclarations.derive grammar).signatures] at kept
      exact (held kept).derive (Signatures.hereditary_admits kept)
  have last := obeys (final ▸ .refl _)
  have fillers := last.fillers (Signatures.hereditary_admits (final ▸ .refl _))
  exact ⟨last.rules, last.zeroFillers, fillers⟩

/-- A pair of words that may be left out. What they mean is joined by a function. -/
def joinedWords : List (Operation Float) :=
  [.declareFunction "join" 0 1 2 false, .declareArgument "a" 0, .declareArgument "b" 0,
    .newSymbol ["first"], .newSymbol ["second"],
    .addRule ⟨2⟩ (.word { WordRule.ofLiteral "one" with
      insertionCost := some 1, meaning := some (.argument "b") }),
    .addRule ⟨3⟩ (.word { WordRule.ofLiteral "two" with
      insertionCost := some 1, meaning := some (.argument "a") }),
    .addRule .start (.phrase { PhraseRule.ofSymbols [⟨2⟩, ⟨3⟩] with
      meaning := some (.apply "join" []) })]

theorem joinedWords_admits :
    (∀ operation ∈ joinedWords ++ [.derive],
      operation.GivesMade (run (joinedWords ++ [.derive])).signatures) ∧
      (run joinedWords).fillers.of? .start = some ⟨2, [.fixed "one", .fixed "two"],
        [.apply "join" [.argument "b", .argument "a"]]⟩ ∧
      ∀ symbol, ∀ rule ∈ (run (joinedWords ++ [.derive])).rulesOf symbol,
        ∀ meaning ∈ rule.meanings,
        (run (joinedWords ++ [.derive])).signatures.Admits meaning := by
  have same : (run (joinedWords ++ [.derive])).signatures = (run joinedWords).signatures :=
    (SameDeclarations.derive (run joinedWords)).signatures
  have arguments : ∀ name ∈ ["a", "b"],
      (run (joinedWords ++ [.derive])).signatures.Makes (.argument name) := by
    intro name mem
    rw [same]
    have found : (run joinedWords).signatures.get? name = some ⟨0, 0, 0, false, true⟩ := by
      revert name
      decide +kernel
    exact .argument found rfl
  have made : ∀ operation ∈ joinedWords ++ [.derive],
      operation.GivesMade (run (joinedWords ++ [.derive])).signatures := by
    generalize (run (joinedWords ++ [.derive])).signatures = signatures at arguments ⊢
    simp [joinedWords, Operation.GivesMade, Operation.Supplies, Rule.meanings, PhraseRule.ofSymbols,
      PhraseRule.ofSlots, arguments, Signatures.Makes.waiting]
  exact ⟨made, by decide +kernel, (run_admits made).1⟩

/-- A function is given another one whose arguments are not in the order in which it keeps them. -/
def swappedUnion : List (Operation Float) :=
  [.declareFunction "union" 0 1 2 true, .declareFunction "not" 0 1 1 false,
    .declareArgument "a" 0, .declareArgument "b" 0, .newSymbol ["word"],
    .addRule ⟨2⟩ (.word { WordRule.ofLiteral "hello" with
      meaning := some (.apply "not" [.apply "union" [.argument "b", .argument "a"]]) })]

/-- A composition takes its arguments as they are given. Where they are not made by the signatures,
neither is what is composed, and the grammar holds a meaning that the signatures do not admit. -/
theorem swappedUnion_not_admits :
    (∀ operation ∈ swappedUnion, operation.IsPlain ∧ operation.Supplies fun rule =>
      ∀ meaning ∈ rule.meanings, ∃ function args,
        (run swappedUnion).signatures.compose function args = .ok meaning) ∧
      ∃ rule ∈ (run swappedUnion).rulesOf ⟨2⟩, ∃ meaning ∈ rule.meanings,
        ¬ (run swappedUnion).signatures.Admits meaning := by
  have composed : (run swappedUnion).signatures.compose (.apply "not" [])
      [.apply "union" [.argument "b", .argument "a"]] =
        .ok (.apply "not" [.apply "union" [.argument "b", .argument "a"]]) := by decide +kernel
  have union : (run swappedUnion).signatures.function? "union" = some ⟨0, 1, 2, true, false⟩ := by
    decide +kernel
  have plain : ∀ operation ∈ swappedUnion, operation.IsPlain := by
    simp only [swappedUnion, List.forall_mem_cons]
    exact ⟨trivial, trivial, trivial, trivial, trivial, Rule.isPlain_ofLiteral,
      List.forall_mem_nil _⟩
  refine ⟨fun operation mem => ⟨plain operation mem, ?_⟩, ?_⟩
  · generalize (run swappedUnion).signatures = signatures at composed
    revert operation
    simp only [swappedUnion, List.forall_mem_cons]
    exact ⟨trivial, trivial, trivial, trivial, trivial,
      List.forall_mem_singleton.mpr ⟨_, _, composed⟩, List.forall_mem_nil _⟩
  · refine ⟨_, List.mem_singleton_self _, _, List.mem_singleton_self _, fun admits => ?_⟩
    cases admits with
    | apply _ all =>
      cases all _ (List.mem_singleton_self _) with
      | apply takes _ =>
        obtain ⟨signature, found, -, -, ascending⟩ := takes
        obtain rfl := Option.some.inj (union.symm.trans found)
        exact absurd (ascending rfl) (by decide)

end Grammar

end PhraseGrammar
