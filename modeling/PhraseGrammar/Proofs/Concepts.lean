import PhraseGrammar.Proofs.Findings

/-! What meanings refer to by name, and where a grammar refers to it. What is left of a rule that
loses children refers to all that the rule refers to, and what is found to be unused is what no
rule and no filler within reach refers to. -/

namespace PhraseGrammar

variable {κ : Type}

/-- What a meaning refers to by name: a function or an argument, or a category. -/
inductive Concept
  | meaning (name : String)
  | category (name : String)

def Meaning.Mentions (meaning : Meaning) : Concept → Prop
  | .meaning name => name ∈ meaning.names
  | .category name => name ∈ meaning.categories

def Concept.IsIn (concept : Concept) (meanings : List Meaning) : Prop :=
  ∃ meaning ∈ meanings, meaning.Mentions concept

variable {concept : Concept} {xs ys : List Meaning}

theorem Concept.IsIn.mono (h : concept.IsIn xs) (part : xs ⊆ ys) : concept.IsIn ys := by
  obtain ⟨meaning, mem, mentions⟩ := h
  exact ⟨meaning, part mem, mentions⟩

theorem Concept.isIn_append :
    concept.IsIn (xs ++ ys) ↔ concept.IsIn xs ∨ concept.IsIn ys := by
  simp only [IsIn, List.mem_append, or_and_right, exists_or]

namespace Meaning

theorem namesOfAll_eq_flatMap (meanings : List Meaning) :
    namesOfAll meanings = meanings.flatMap names := by
  induction meanings with
  | nil => rfl
  | cons first rest ih => rw [namesOfAll, ih, List.flatMap_cons]

theorem categoriesOfAll_eq_flatMap (meanings : List Meaning) :
    categoriesOfAll meanings = meanings.flatMap categories := by
  induction meanings with
  | nil => rfl
  | cons first rest ih => rw [categoriesOfAll, ih, List.flatMap_cons]

theorem mentions_apply {function : String} {args : List Meaning} :
    (apply function args).Mentions concept ↔
      concept = .meaning function ∨ concept.IsIn args := by
  cases concept with
  | meaning name =>
    rw [Mentions, names, namesOfAll_eq_flatMap, List.mem_cons, List.mem_flatMap,
      Concept.meaning.injEq]
    rfl
  | category name =>
    rw [Mentions, categories, categoriesOfAll_eq_flatMap, List.mem_flatMap]
    exact (or_iff_right nofun).symm

end Meaning

namespace Signatures

variable {signatures : Signatures κ}

theorem mem_arrange {signature : Signature κ} {args : List Meaning} {meaning : Meaning} :
    meaning ∈ arrange signature args ↔ meaning ∈ args := by
  unfold arrange
  split
  · exact List.mem_mergeSort
  · exact .rfl

/-- A meaning that takes up those of the children refers to all that they refer to. -/
theorem isIn_of_reduce {meaning : Option Meaning} {children reduced : List Meaning}
    (h : signatures.reduce? meaning children = some reduced)
    (given : concept.IsIn (meaning.toList ++ children)) : concept.IsIn reduced := by
  cases meaning with
  | none => exact Option.some.inj h ▸ given
  | some meaning =>
    rw [reduce?] at h
    split at h
    case isTrue => exact Option.some.inj h ▸ given
    case isFalse =>
      cases result : signatures.compose meaning children with
      | error fault =>
        rw [result] at h
        exact nomatch h
      | ok composed =>
        rw [result] at h
        obtain rfl : [composed] = reduced := Option.some.inj h
        obtain ⟨name, signature, rfl, -, -, -, rfl⟩ := compose_eq_ok.mp result
        refine ⟨_, List.mem_singleton_self _, Meaning.mentions_apply.mpr ?_⟩
        rcases Concept.isIn_append.mp given with ⟨own, here, mentions⟩ | below
        · obtain rfl := List.mem_singleton.mp here
          rcases Meaning.mentions_apply.mp mentions with name | ⟨_, none, _⟩
          · exact .inl name
          · exact absurd none List.not_mem_nil
        · exact .inr (below.mono fun _ mem => mem_arrange.mpr mem)

end Signatures

def Rule.LeavesOne : Rule κ → Prop
  | .word _ => True
  | .phrase rule => rule.elided.isSome = true → rule.slots.length = 1

theorem Rule.IsAuthored.leavesOne {rule : Rule κ} (h : rule.IsAuthored) : rule.LeavesOne := by
  cases rule with
  | word rule => exact trivial
  | phrase rule =>
    intro elided
    rw [h.2] at elided
    cases elided

variable [Cost κ]

namespace PhraseRule

variable {rule : PhraseRule κ} {vanishing : Fillers κ}

omit [Cost κ] in
theorem mem_insertIdx_min {α : Type} (xs : List α) (i : Nat) (x : α) :
    x ∈ xs.insertIdx (min i xs.length) x :=
  (List.mem_insertIdx (Nat.min_le_right i xs.length)).mpr (.inl rfl)

theorem isIn_zeroFiller (signatures : Signatures κ)
    (h : concept.IsIn (Rule.phrase rule).meanings) :
    concept.IsIn (rule.zeroFiller signatures vanishing).meanings := by
  have elided : ∀ parts : List (Filler κ), (rule.elided.map (·.filler.meanings)).getD [] ⊆
      (rule.withElided parts).flatMap (·.meanings) := by
    intro parts meaning mem
    unfold withElided
    cases left : rule.elided with
    | none =>
      rw [left] at mem
      exact absurd mem List.not_mem_nil
    | some elided =>
      rw [left] at mem
      exact List.mem_flatMap.mpr ⟨_, mem_insertIdx_min parts _ _, mem⟩
  unfold zeroFiller
  dsimp only
  generalize (rule.vanishingChildren vanishing).map (·.filler) = parts
  have given : concept.IsIn (rule.meaning.toList ++
      (rule.withElided parts).flatMap (·.meanings)) := by
    refine h.mono fun meaning mem => List.mem_append.mpr ?_
    exact (List.mem_append.mp mem).imp_right fun mem => elided parts mem
  cases result : signatures.reduce? rule.meaning ((rule.withElided parts).flatMap (·.meanings)) with
  | none => exact given
  | some reduced => exact Signatures.isIn_of_reduce result given

omit [Cost κ] in
/-- Of a rule that leaves out a child nothing is left when it loses another one. -/
theorem meanings_remainder (leaves : (Rule.phrase rule).LeavesOne)
    (loses : rule.hasVanishing vanishing = true) (some : rule.staying vanishing ≠ []) :
    (Rule.phrase rule).meanings = rule.meaning.toList := by
  have fewer := length_staying_lt loses
  have more := List.length_pos_iff.mpr some
  cases elided : rule.elided with
  | none => rw [Rule.meanings, elided, Option.map_none, Option.getD_none, List.append_nil]
  | some child =>
    have single := leaves (elided ▸ rfl)
    omega

theorem isIn_remainder (leaves : (Rule.phrase rule).LeavesOne)
    (loses : rule.hasVanishing vanishing = true) (some : rule.staying vanishing ≠ [])
    (h : concept.IsIn (Rule.phrase rule).meanings) :
    concept.IsIn (Rule.phrase (rule.remainder vanishing)).meanings := by
  rw [meanings_remainder leaves loses some] at h
  exact Concept.isIn_append.mpr (.inl h)

theorem length_remainder (few : rule.slots.length ≤ 2)
    (loses : rule.hasVanishing vanishing = true) (some : rule.staying vanishing ≠ []) :
    (rule.remainder vanishing).slots.length = 1 := by
  have fewer := length_staying_lt loses
  have more := List.length_pos_iff.mpr some
  change ((rule.staying vanishing).map (·.1)).length = 1
  rw [List.length_map]
  omega

omit [Cost κ] in
theorem IsSound.length_le {size : Nat} (h : rule.IsSound size) : rule.slots.length ≤ 2 := by
  have count := h.count
  omega

end PhraseRule

namespace Grammar

variable {grammar : Grammar κ} {symbol : Symbol}

theorem IsSound.derive_leavesOne (h : grammar.IsSound) (leaves : grammar.AllRules Rule.LeavesOne) :
    grammar.derive.1.AllRules Rule.LeavesOne := by
  refine (derive_induction
    (Q := fun derived => derived.IsSound ∧ derived.AllRules Rule.LeavesOne)
    (fun ⟨sound, leaves⟩ => ⟨sound.collapseRound, ?_⟩)
    (fun ⟨sound, leaves⟩ => ⟨sound.insertionRound, ?_⟩)
    (fun ⟨sound, leaves⟩ => ⟨sound.transpose, ?_⟩) ⟨h, leaves⟩).2
  · exact leaves.collapseRound_of_mem fun mem loses some _ =>
      PhraseRule.length_remainder (PhraseRule.IsSound.length_le (sound.rule mem)) loses some
  · exact leaves.insertionRound fun _ _ _ _ _ _ => rfl
  · exact leaves.transpose fun _ _ _ _ => nofun

theorem run_leavesOne {operations : List (Operation κ)}
    (plain : ∀ operation ∈ operations, operation.IsPlain) :
    (run operations).AllRules Rule.LeavesOne := by
  refine (run_induction (P := Rule.IsAuthored)
    (Q := fun grammar => grammar.IsSound ∧ grammar.AllRules Rule.LeavesOne)
    ⟨.new, .new⟩ (fun ⟨sound, leaves⟩ step => ⟨?_, ?_⟩)
    (fun _ {_} ⟨sound, leaves⟩ => ⟨sound.derive, sound.derive_leavesOne leaves⟩)
    fun operation mem => (plain operation mem).mono fun _ plain => plain.isAuthored).2
  · exact sound.step (step.mono fun _ _ => trivial)
  · exact leaves.step (fun _ authored => authored.leavesOne)
      (step.mono fun _ authored => authored.leavesOne)

end Grammar

/-- Where a symbol refers to something: the filler that it keeps, or one of its rules. -/
inductive Use (κ : Type)
  | filler (filler : Filler κ)
  | rule (rule : Rule κ)

namespace Use

def meanings : Use κ → List Meaning
  | .filler kept => kept.meanings
  | .rule held => held.meanings

def category? : Use κ → Option String
  | .filler _ => none
  | .rule held => held.category?

/-- A placeholder refers to its category as well. -/
def Mentions (use : Use κ) (concept : Concept) : Prop :=
  concept.IsIn use.meanings ∨ ∃ name, use.category? = some name ∧ concept = .category name

end Use

namespace Grammar

variable {grammar : Grammar κ} {symbol : Symbol} {name : String}

def HasUse (grammar : Grammar κ) (symbol : Symbol) : Use κ → Prop
  | .filler filler => grammar.zeroFiller? symbol = some filler
  | .rule rule => rule ∈ grammar.rulesOf symbol

def InUse (grammar : Grammar κ) (concept : Concept) : Prop :=
  ∃ symbol use, grammar.reachable.contains symbol = true ∧ grammar.HasUse symbol use ∧
    use.Mentions concept

def Declares (grammar : Grammar κ) : Concept → Prop
  | .meaning name => name ∈ grammar.signatures.names
  | .category name => name ∈ grammar.categories.names

omit [Cost κ] in
theorem SameDeclarations.declares_iff {other : Grammar κ} (h : grammar.SameDeclarations other) :
    other.Declares concept ↔ grammar.Declares concept := by
  cases concept with
  | meaning name => rw [Declares, Declares, h.signatures]
  | category name => rw [Declares, Declares, h.categories]

omit [Cost κ] in
theorem IsSound.ne_empty_of_hasUse (h : grammar.IsSound) {use : Use κ}
    (has : grammar.HasUse symbol use) : symbol ≠ .empty := by
  rintro rfl
  cases use with
  | filler filler => exact nomatch h.isConsistent.bare.2.2.symm.trans has
  | rule rule => exact h.ne_empty has rfl

def Reports (grammar : Grammar κ) : Concept → Prop
  | .meaning name => name ∈ grammar.unused.meanings
  | .category name => name ∈ grammar.unused.categories

instance : DecidablePred grammar.Reports
  | .meaning name => inferInstanceAs (Decidable (name ∈ grammar.unused.meanings))
  | .category name => inferInstanceAs (Decidable (name ∈ grammar.unused.categories))

omit [Cost κ] in
theorem mem_reachableEntries {entry : Entry κ} :
    entry ∈ grammar.reachableEntries ↔
      ∃ symbol, grammar.reachable.contains symbol = true ∧ grammar.entryOf? symbol = some entry := by
  simp only [reachableEntries, List.mem_filterMap, SymbolSet.mem_members]

omit [Cost κ] in
theorem mem_reachableMeanings {meaning : Meaning} :
    meaning ∈ grammar.reachableMeanings ↔
      ∃ symbol use, grammar.reachable.contains symbol = true ∧ grammar.HasUse symbol use ∧
        meaning ∈ use.meanings := by
  rw [reachableMeanings, List.mem_flatMap]
  constructor
  · rintro ⟨entry, mem, inside⟩
    obtain ⟨symbol, within, found⟩ := mem_reachableEntries.mp mem
    rcases List.mem_append.mp inside with inside | inside
    · cases kept : entry.zeroFiller with
      | none =>
        rw [kept] at inside
        exact absurd inside List.not_mem_nil
      | some filler =>
        rw [kept] at inside
        refine ⟨symbol, .filler filler, within, ?_, inside⟩
        rw [HasUse, zeroFiller?, found]
        exact kept
    · obtain ⟨rule, there, inside⟩ := List.mem_flatMap.mp inside
      exact ⟨symbol, .rule rule, within, mem_rulesOf.mpr ⟨entry, found, there⟩, inside⟩
  · rintro ⟨symbol, filler | rule, within, has, inside⟩
    · obtain ⟨entry, found, kept⟩ := Option.bind_eq_some_iff.mp has
      refine ⟨entry, mem_reachableEntries.mpr ⟨symbol, within, found⟩, List.mem_append_left _ ?_⟩
      rw [kept]
      exact inside
    · obtain ⟨entry, found, there⟩ := mem_rulesOf.mp has
      exact ⟨entry, mem_reachableEntries.mpr ⟨symbol, within, found⟩,
        List.mem_append_right _ (List.mem_flatMap.mpr ⟨rule, there, inside⟩)⟩

omit [Cost κ] in
theorem mem_placeholders :
    name ∈ grammar.reachableEntries.flatMap (·.rules.filterMap Rule.category?) ↔
      ∃ symbol use, grammar.reachable.contains symbol = true ∧ grammar.HasUse symbol use ∧
        use.category? = some name := by
  simp only [List.mem_flatMap, List.mem_filterMap]
  constructor
  · rintro ⟨entry, mem, rule, there, named⟩
    obtain ⟨symbol, within, found⟩ := mem_reachableEntries.mp mem
    exact ⟨symbol, .rule rule, within, mem_rulesOf.mpr ⟨entry, found, there⟩, named⟩
  · rintro ⟨symbol, filler | rule, within, has, named⟩
    · exact nomatch named
    · obtain ⟨entry, found, there⟩ := mem_rulesOf.mp has
      exact ⟨entry, mem_reachableEntries.mpr ⟨symbol, within, found⟩, rule, there, named⟩

omit [Cost κ] in
theorem mem_usedNames : name ∈ grammar.usedNames ↔ grammar.InUse (.meaning name) := by
  rw [usedNames, List.mem_flatMap]
  constructor
  · rintro ⟨meaning, mem, named⟩
    obtain ⟨symbol, use, within, has, inside⟩ := mem_reachableMeanings.mp mem
    exact ⟨symbol, use, within, has, .inl ⟨meaning, inside, named⟩⟩
  · rintro ⟨symbol, use, within, has, ⟨meaning, inside, named⟩ | ⟨_, _, other⟩⟩
    · exact ⟨meaning, mem_reachableMeanings.mpr ⟨symbol, use, within, has, inside⟩, named⟩
    · exact nomatch other

omit [Cost κ] in
theorem mem_usedCategories : name ∈ grammar.usedCategories ↔ grammar.InUse (.category name) := by
  rw [usedCategories, List.mem_append, List.mem_flatMap, mem_placeholders]
  constructor
  · rintro (⟨meaning, mem, named⟩ | ⟨symbol, use, within, has, named⟩)
    · obtain ⟨symbol, use, within, has, inside⟩ := mem_reachableMeanings.mp mem
      exact ⟨symbol, use, within, has, .inl ⟨meaning, inside, named⟩⟩
    · exact ⟨symbol, use, within, has, .inr ⟨name, named, rfl⟩⟩
  · rintro ⟨symbol, use, within, has, ⟨meaning, inside, named⟩ | ⟨_, named, same⟩⟩
    · exact .inl ⟨meaning, mem_reachableMeanings.mpr ⟨symbol, use, within, has, inside⟩, named⟩
    · obtain rfl := Concept.category.inj same
      exact .inr ⟨symbol, use, within, has, named⟩

omit [Cost κ] in
/-- The audit reports what is declared and not in use. -/
theorem reports_iff : grammar.Reports concept ↔ grammar.Declares concept ∧ ¬ grammar.InUse concept := by
  cases concept with
  | meaning name =>
    rw [Reports, unused, List.mem_filter, Bool.not_eq_true', ← Bool.not_eq_true,
      List.contains_iff_mem, mem_usedNames, Declares]
  | category name =>
    rw [Reports, unused, List.mem_filter, Bool.not_eq_true', ← Bool.not_eq_true,
      List.contains_iff_mem, mem_usedCategories, Declares]

end Grammar

end PhraseGrammar
