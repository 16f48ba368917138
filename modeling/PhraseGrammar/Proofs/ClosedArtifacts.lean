import PhraseGrammar.Artifact.Basic
import PhraseGrammar.Proofs.Auditing
import PhraseGrammar.Proofs.Consistency
import PhraseGrammar.Proofs.Idempotence
import PhraseGrammar.Proofs.ListedTables
import PhraseGrammar.Proofs.Matching

/-! Artifacts are closed: whatever they refer to is in them, once rules have been derived and the
audit has no complaints. A parser never meets the name of a symbol without rules. -/

namespace PhraseGrammar

variable {κ : Type}

/-- The start symbol and all children of rules are in the artifact. -/
structure Artifact.IsClosed (artifact : Artifact κ) : Prop where
  start : artifact.rules.contains artifact.start = true
  sides : ∀ entry ∈ artifact.rules.entries, ∀ rule ∈ entry.2, rule.isWord = false →
    ∀ name ∈ rule.side, artifact.rules.contains name = true

namespace Grammar

variable {grammar derived : Grammar κ} {symbol : Symbol}

theorem mem_artifactEntries {entry : String × List (ArtifactRule κ)} :
    entry ∈ grammar.artifactEntries ↔
      ∃ symbol, symbol.index < grammar.size ∧
        (grammar.rulesOf symbol ≠ [] ∨ symbol = .start) ∧
        entry = (grammar.nameOf symbol, (grammar.rulesOf symbol).map grammar.artifactRule) := by
  simp only [artifactEntries, List.mem_filterMap, symbols, List.mem_map, List.mem_range,
    Option.ite_none_left_eq_some, Bool.and_eq_true, List.isEmpty_iff, decide_eq_true_eq, not_and,
    Option.some.injEq, exists_exists_and_eq_and]
  constructor
  · rintro ⟨index, known, there, rfl⟩
    exact ⟨⟨index⟩, known, Decidable.or_iff_not_imp_left.mpr fun none =>
      Decidable.not_not.mp (there (Decidable.not_not.mp none)), rfl⟩
  · rintro ⟨⟨index⟩, known, there, rfl⟩
    exact ⟨index, known, fun none other => there.elim (absurd none) other, rfl⟩

theorem artifact_contains {name : String} :
    grammar.artifact.rules.contains name = true ↔
      ∃ symbol, symbol.index < grammar.size ∧
        (grammar.rulesOf symbol ≠ [] ∨ symbol = .start) ∧ grammar.nameOf symbol = name := by
  rw [artifact, Table.contains_ofList, List.mem_map]
  constructor
  · rintro ⟨entry, mem, rfl⟩
    obtain ⟨symbol, known, there, rfl⟩ := mem_artifactEntries.mp mem
    exact ⟨symbol, known, there, rfl⟩
  · rintro ⟨symbol, known, there, rfl⟩
    exact ⟨_, mem_artifactEntries.mpr ⟨symbol, known, there, rfl⟩, rfl⟩

theorem IsSound.artifact_contains_empty (sound : grammar.IsSound) :
    grammar.artifact.rules.contains SymbolName.empty = false := by
  rw [← Bool.not_eq_true, artifact_contains]
  rintro ⟨symbol, known, there, named⟩
  have empty : Symbol.empty.index < grammar.size := entryOf?_isSome.mp (sound.empty ▸ rfl)
  have name : grammar.nameOf .empty = SymbolName.empty := by
    rw [nameOf, sound.empty]
    rfl
  obtain rfl := sound.nameOf_inj known empty (named.trans name.symm)
  rcases there with ruled | reserved
  · exact ruled sound.rulesOf_empty
  · cases reserved

variable [Cost κ]

/-- A derivation that is not refused leaves no child that matches only the empty text. -/
theorem derive_isCollapsed {tally : Tally} (h : grammar.derive = (derived, .ok tally)) :
    derived.IsCollapsed := by
  rcases derive_eq grammar with ⟨left, fault, -, done⟩ | ⟨left, count, collapse, done⟩
  · rw [done] at h
    exact nomatch (Prod.mk.inj h).2
  · rw [done] at h
    obtain ⟨rfl, -⟩ := Prod.mk.inj h
    have inserted : (insertionRounds (left.size + 1) left (.ofCollapsed count)).1.IsCollapsed :=
      insertionRounds_induction (Q := fun state => state.1.IsCollapsed)
        (fun h => h.insertionRound) _ (collapse_isCollapsed collapse)
    exact inserted.transpose

theorem matchesOnlyEmpty_of_isCollapsed (collapsed : grammar.IsCollapsed) (sound : grammar.IsSound)
    {rule : Rule κ} (mem : rule ∈ grammar.rulesOf symbol) {child : Symbol}
    (there : child ∈ rule.children) : grammar.matchesOnlyEmpty child = false := by
  have stays := isCollapsed_iff.mp collapsed symbol rule mem
  cases rule with
  | word word => exact absurd there List.not_mem_nil
  | phrase rule =>
    have known : child.index < grammar.size :=
      PhraseRule.IsSound.children (sound.rule mem) child there
    have firm : (grammar.vanishing.of? child).isSome = false := by
      rw [← Bool.not_eq_true]
      intro gone
      obtain ⟨slot, here, rfl⟩ := List.mem_map.mp there
      have vanishes := PhraseRule.hasVanishing_iff.mpr ⟨slot, here, gone⟩
      exact Bool.false_ne_true (stays.symm.trans vanishes)
    rw [vanishing_of?, if_pos known] at firm
    rw [← Bool.not_eq_true]
    intro only
    rw [if_pos only] at firm
    by_cases empty : child = .empty
    · rw [if_pos empty] at firm
      exact nomatch firm
    · rw [if_neg empty] at firm
      rw [matchesOnlyEmpty, Bool.or_eq_true, decide_eq_true_eq, or_iff_right empty,
        Bool.and_eq_true] at only
      exact Bool.false_ne_true (firm.symm.trans only.1)

theorem ne_empty_of_isCollapsed (collapsed : grammar.IsCollapsed) (sound : grammar.IsSound)
    {rule : Rule κ} (mem : rule ∈ grammar.rulesOf symbol) {child : Symbol}
    (there : child ∈ rule.children) : child ≠ .empty := by
  rintro rfl
  exact nomatch matchesOnlyEmpty_of_isCollapsed collapsed sound mem there

/-- A child without rules would match the empty text, and so be gone. -/
theorem rulesOf_ne_nil_of_isCollapsed (collapsed : grammar.IsCollapsed) (sound : grammar.IsSound)
    (used : grammar.requireUsed = .ok ()) {rule : Rule κ} (mem : rule ∈ grammar.rulesOf symbol)
    {child : Symbol} (there : child ∈ rule.children) (known : child.index < grammar.size)
    (isOther : child ≠ .start) : grammar.rulesOf child ≠ [] := by
  intro none
  have other := ne_empty_of_isCollapsed collapsed sound mem there
  have filled : grammar.matchesEmpty child = true :=
    (inhabited_of_requireUsed used known isOther other).resolve_right (absurd none)
  have firm := matchesOnlyEmpty_of_isCollapsed collapsed sound mem there
  rw [matchesEmpty, Bool.or_eq_true, decide_eq_true_eq, or_iff_right other] at filled
  rw [matchesOnlyEmpty, none, filled, List.isEmpty_nil, Bool.and_true, Bool.or_true] at firm
  cases firm

theorem isClosed_of_isCollapsed (collapsed : grammar.IsCollapsed) (sound : grammar.IsSound)
    (used : grammar.requireUsed = .ok ()) : grammar.artifact.IsClosed where
  start := artifact_contains.mpr ⟨.start, sound.start_lt, .inr rfl, rfl⟩
  sides := by
    intro entry mem made there phrase name named
    obtain ⟨symbol, -, -, rfl⟩ := mem_artifactEntries.mp (Table.of_mem_ofList mem)
    obtain ⟨rule, present, rfl⟩ := List.mem_map.mp there
    cases rule with
    | word word => exact nomatch phrase
    | phrase rule =>
      obtain ⟨child, here, rfl⟩ := List.mem_map.mp named
      have known : child.index < grammar.size :=
        PhraseRule.IsSound.children (sound.rule present) child here
      refine artifact_contains.mpr ⟨child, known, ?_, rfl⟩
      by_cases isStart : child = .start
      · exact .inr isStart
      · exact .inl (rulesOf_ne_nil_of_isCollapsed collapsed sound used present here known isStart)

/-- After a derivation, an audit without complaints leaves an artifact in which every child of a
rule has rules. The empty symbol is not in it, nor is any symbol that only matches the empty
text a child. -/
theorem run_derive_artifact_isClosed (operations : List (Operation κ)) {tally : Tally}
    (h : (run operations).derive = (derived, .ok tally)) (used : derived.requireUsed = .ok ()) :
    derived.artifact.IsClosed ∧ derived.artifact.rules.contains SymbolName.empty = false ∧
      derived.AllRules fun rule => ∀ child ∈ rule.children,
        child ≠ .empty ∧ derived.matchesOnlyEmpty child = false := by
  have sound : derived.IsSound := by
    have sound := (IsSound.run operations).derive
    rwa [h] at sound
  have collapsed : derived.IsCollapsed := derive_isCollapsed h
  refine ⟨isClosed_of_isCollapsed collapsed sound used, sound.artifact_contains_empty, ?_⟩
  intro symbol rule mem child there
  exact ⟨ne_empty_of_isCollapsed collapsed sound mem there,
    matchesOnlyEmpty_of_isCollapsed collapsed sound mem there⟩

/-- A sentence of one word, with the empty symbol before it, has a closed artifact. -/
theorem wordAfterEmpty_artifact_isClosed :
    (run wordAfterEmpty).derive.1.requireUsed = .ok () ∧
      (run wordAfterEmpty).derive.1.artifact.IsClosed := by
  have derived : (run wordAfterEmpty).derive =
      ((run wordAfterEmpty).derive.1, .ok ⟨1, 0, 0, 0, 1, true⟩) :=
    Prod.ext rfl (by decide +kernel)
  have used : (run wordAfterEmpty).derive.1.requireUsed = .ok () := by decide +kernel
  exact ⟨used, (run_derive_artifact_isClosed wordAfterEmpty derived used).1⟩

end Grammar

end PhraseGrammar
